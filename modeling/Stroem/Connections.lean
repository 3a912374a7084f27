import Stroem.RefPins
import Stroem.Template

/-!
# Connections across workspaces

A field of an input schema that has no primitive type takes a connection by its name, and a step
gets the connection's values in its place.  The name may come from the caller's flow step or from
a default of the action, which may belong to another workspace.  Each is resolved in a scope of
its own; a connection crosses a workspace boundary only where its owner shares it.
-/

namespace Stroem.Connections

open Foundation RefPins

structure ConnectionPropertyDef where
  required : Bool := false
  default : Option Json := none
  deriving DecidableEq

structure ConnectionTypeDef where
  properties : List (String × ConnectionPropertyDef)
  deriving DecidableEq

structure ConnectionDef where
  connectionType : Option String := none
  shared : Bool := false
  values : List (String × Json)
  deriving DecidableEq

structure WorkspaceConfig where
  secrets : List (String × Json) := []
  connectionTypes : List (String × ConnectionTypeDef) := []
  connections : List (String × ConnectionDef) := []
  deriving DecidableEq

structure InputFieldDef where
  fieldType : String
  default : Option Json := none
  deriving DecidableEq

structure InputSchema where
  entries : List (String × InputFieldDef)
  nodup : (entries.map Prod.fst).Nodup

def primitiveTypes : List String :=
  ["string", "text", "integer", "number", "boolean", "date", "datetime", "json", "file"]

inductive Lookup where
  | found (config : WorkspaceConfig)
  | unknown
  | unavailable

structure WorkspaceLookup where
  localName : String
  get : String → Lookup
  offline : Bool := false

structure CanonicalType where
  workspace : String
  name : String
  deriving DecidableEq

def CanonicalType.display (t : CanonicalType) : String := t.workspace ++ "." ++ t.name

def withContext {α : Type} (context : String) : Except String α → Except String α
  | .ok value => .ok value
  | .error e => .error (context ++ ": " ++ e)

def foundConfig (lookup : WorkspaceLookup) (ws what : String) : Except String WorkspaceConfig :=
  match lookup.get ws with
  | .found config => .ok config
  | .unknown => .error (what ++ ": unknown workspace '" ++ ws ++ "'")
  | .unavailable => .error (what ++ ": workspace '" ++ ws ++ "' is not available")

def canonicalTypeRef (typeRef definingWs : String) (lookup : WorkspaceLookup) :
    Except String CanonicalType := do
  let label := "connection type '" ++ typeRef ++ "'"
  let definingCfg ← foundConfig lookup definingWs label
  if (definingCfg.connectionTypes.lookup typeRef).isSome then
    return ⟨definingWs, typeRef⟩
  match parseQualifiedRef typeRef with
  | (some ws, item) =>
    match lookup.get ws with
    | .found cfg =>
      if (cfg.connectionTypes.lookup item).isSome then .ok ⟨ws, item⟩
      else .error (label ++ ": workspace '" ++ ws ++ "' has no connection type '" ++ item ++ "'")
    | .unknown => .ok ⟨definingWs, typeRef⟩
    | .unavailable => .error (label ++ ": workspace '" ++ ws ++ "' is not available")
  | (none, _) => .ok ⟨definingWs, typeRef⟩

structure ResolveScope where
  lookup : WorkspaceLookup
  schemaWs : String
  valueWs : String
  fallbackWs : Option String

structure ResolvedConnection where
  workspace : String
  «def» : ConnectionDef
  deriving DecidableEq

inductive ConnectionRefError where
  | notFound
  | unknownWorkspace
  | workspaceUnavailable
  | notShared
  | offlineCrossWorkspace
  deriving DecidableEq

def ConnectionRefError.display : ConnectionRefError → String
  | .notFound => "no connection with that name exists"
  | .unknownWorkspace => "the connection names an unknown workspace"
  | .workspaceUnavailable => "the workspace that owns the connection is not available"
  | .notShared => "the connection exists but is not shared (set `shared: true` on it)"
  | .offlineCrossWorkspace =>
    "cross-workspace connection references require a server (run this task through " ++
      "`stroem-api trigger`)"

def resolveFallback (connRef : String) (scope : ResolveScope) :
    Except ConnectionRefError ResolvedConnection :=
  match scope.fallbackWs.filter (· ≠ scope.valueWs) with
  | none => .error .notFound
  | some fb =>
    match scope.lookup.get fb with
    | .found cfg =>
      match cfg.connections.lookup connRef with
      | some conn => if conn.shared then .ok ⟨fb, conn⟩ else .error .notShared
      | none => .error .notFound
    | _ => .error .notFound

def resolveConnectionRef (connRef : String) (scope : ResolveScope) :
    Except ConnectionRefError ResolvedConnection :=
  match scope.lookup.get scope.valueWs with
  | .unknown => .error .unknownWorkspace
  | .unavailable => .error .workspaceUnavailable
  | .found valueCfg =>
    match valueCfg.connections.lookup connRef with
    | some conn => .ok ⟨scope.valueWs, conn⟩
    | none =>
      match parseQualifiedRef connRef with
      | (some ws, item) =>
        match scope.lookup.get ws with
        | .found cfg =>
          match cfg.connections.lookup item with
          | some conn =>
            if ws = scope.valueWs ∨ conn.shared then .ok ⟨ws, conn⟩
            else .error .notShared
          | none => .error .notFound
        | .unknown =>
          if scope.lookup.offline then .error .offlineCrossWorkspace
          else .error .unknownWorkspace
        | .unavailable => .error .workspaceUnavailable
      | (none, _) => resolveFallback connRef scope

/-! ## Values of connections -/

def valuesWithTypeDefaults (conn : ConnectionDef) (typeDef : ConnectionTypeDef) :
    List (String × Json) :=
  insertAllFirst conn.values
    (typeDef.properties.filterMap fun prop => prop.2.default.map fun value => (prop.1, value))

def checkConnectionValues (label : String) (values : List (String × Json)) (typeName : String)
    (typeDef : ConnectionTypeDef) : Except String Unit := do
  for (propName, propDef) in typeDef.properties do
    if propDef.required ∧ propDef.default = none ∧ values.lookup propName = none then
      throw (label ++ " is missing required field '" ++ propName ++ "' (type '" ++ typeName ++ "')")
  for (key, value) in values do
    if value = .str "" then
      throw (label ++ " field '" ++ key ++ "' has an empty value")

def connectionValues (scope : ResolveScope) (fieldName : String) (fieldCt : CanonicalType)
    (resolved : ResolvedConnection) : Except String (List (String × Json)) := do
  let label := "Input field '" ++ fieldName ++ "'"
  match resolved.def.connectionType with
  | none => return resolved.def.values
  | some declared =>
    match canonicalTypeRef declared resolved.workspace scope.lookup with
    | .error _ => throw (label ++ ": the type of the connection it names could not be resolved")
    | .ok connCt =>
      if connCt ≠ fieldCt then
        throw (label ++ " expects type '" ++ fieldCt.display ++
          "' but the connection it names is type '" ++ connCt.display ++ "'")
      else if connCt.workspace ≠ resolved.workspace then
        let typeCfg ← foundConfig scope.lookup connCt.workspace "connection type"
        match typeCfg.connectionTypes.lookup connCt.name with
        | none => throw ("connection type '" ++ connCt.display ++ "' vanished")
        | some typeDef =>
          let withDefaults := valuesWithTypeDefaults resolved.def typeDef
          checkConnectionValues ("input field '" ++ fieldName ++ "'") withDefaults
            connCt.display typeDef
          return withDefaults
      else return resolved.def.values

def resolveName (scope : ResolveScope) (fieldName : String) (field : InputFieldDef)
    (connName : String) : Except String Json := do
  let label := "Input field '" ++ fieldName ++ "'"
  let fieldCt ← withContext label (canonicalTypeRef field.fieldType scope.schemaWs scope.lookup)
  match resolveConnectionRef connName scope with
  | .error kind => throw (label ++ ": " ++ kind.display)
  | .ok resolved =>
    let values ← connectionValues scope fieldName fieldCt resolved
    return .obj (Fields.collect values)

def resolveField (scope : ResolveScope) (result : Fields) (entry : String × InputFieldDef) :
    Except String Fields :=
  if primitiveTypes.contains entry.2.fieldType then .ok result
  else
    match Fields.get entry.1 result with
    | none => .ok result
    | some (.str connName) => do
        let value ← resolveName scope entry.1 entry.2 connName
        return Fields.insert entry.1 value result
    | some (.obj _) => .ok result
    | some other =>
      .error ("Input field '" ++ entry.1 ++ "' expects a connection name (string), got " ++
        other.typeName)

def asMap : Json → Fields
  | .obj fields => fields
  | _ => []

def resolveConnectionInputsScoped (input : Json) (schema : InputSchema) (scope : ResolveScope) :
    Except String Json := do
  let result ← schema.entries.foldlM (resolveField scope) (asMap input)
  return .obj result

/-! ## Defaults -/

def indexText (path : List (Option Nat)) : Option String :=
  if path = [] then none
  else (path.mapM id).map fun indices =>
    String.join (indices.map fun i => "[" ++ toString i ++ "]")

def renderLocation (path : List (Option Nat)) : String :=
  match indexText path with
  | some indices => "Failed to render the template at `" ++ indices ++ "`"
  | none => "Failed to render a template in this value"

def containsText (s pattern : String) : Bool :=
  s.toList.tails.any fun rest => pattern.toList.isPrefixOf rest

mutual

def renderValueDeep (env : TemplateEnv) (context : Json) (path : List (Option Nat)) :
    Json → Except String Json
  | .str s =>
    if containsText s "\x7b\x7b" then
      (withContext (renderLocation path) (env.renderTemplate s context)).map .str
    else .ok (.str s)
  | .obj fields => (renderFieldsDeep env context path fields).map .obj
  | .arr items => (renderItemsDeep env context path 0 items).map .arr
  | other => .ok other

def renderFieldsDeep (env : TemplateEnv) (context : Json) (path : List (Option Nat)) :
    List (String × Json) → Except String (List (String × Json))
  | [] => .ok []
  | (key, value) :: rest => do
      let rendered ← renderValueDeep env context (path ++ [none]) value
      let rest ← renderFieldsDeep env context path rest
      return (key, rendered) :: rest

def renderItemsDeep (env : TemplateEnv) (context : Json) (path : List (Option Nat)) (index : Nat) :
    List Json → Except String (List Json)
  | [] => .ok []
  | value :: rest => do
      let rendered ← renderValueDeep env context (path ++ [some index]) value
      let rest ← renderItemsDeep env context path (index + 1) rest
      return rendered :: rest

end

inductive Classified where
  | literal
  | single (inner : String)
  | mixed
  deriving DecidableEq

def delimiters : List String :=
  ["\x7b\x7b", "\x7d\x7d", "\x7b%", "%\x7d", "\x7b#", "#\x7d"]

def looksTemplated (s : String) : Bool :=
  containsText s "\x7b\x7b" || containsText s "\x7b%" || containsText s "\x7b#"

def isAsciiWhitespace (c : Char) : Bool :=
  c == ' ' || c == '\t' || c == '\n' || c == '\r' || c == '\x0c'

def stripSuffix (pattern s : List Char) : Option (List Char) :=
  (s.reverse.dropPrefix? pattern.reverse).map List.reverse

def classify (s : String) : Classified :=
  if looksTemplated s then
    let trimmed :=
      ((s.toList.dropWhile isAsciiWhitespace).reverse.dropWhile isAsciiWhitespace).reverse
    match (trimmed.dropPrefix? ['\x7b', '\x7b']).bind (stripSuffix ['\x7d', '\x7d']) with
    | none => .mixed
    | some body =>
      let body := match body with
        | '-' :: rest => rest
        | other => other
      let inner := String.ofList ((stripSuffix ['-'] body).getD body)
      if delimiters.any (containsText inner) then .mixed else .single inner
  else .literal

def wrapExpression (inner : String) : String :=
  "\x7b% set __stroem_v = " ++ inner ++
    " %\x7d\x7b% if __stroem_v is undefined %\x7d\x7b\x7b __stroem_v \x7d\x7d\x7b% endif %\x7d" ++
    "\x7b\x7b __stroem_v | json_encode() \x7d\x7d"

def evalSingle (env : TemplateEnv) (context : Json) (inner : String) : Except String Json := do
  let text ← env.renderTemplate (wrapExpression inner) context
  match env.fromStr text with
  | .ok value => .ok value
  | .error _ => .error "the expression's value could not be converted to JSON"

def jsonLocation (field : String) (path : List (Option Nat)) : String :=
  match indexText path with
  | some indices => "Input field '" ++ field ++ "' at `" ++ indices ++ "`"
  | none => "Input field '" ++ field ++ "'"

mutual

def renderJsonValue (env : TemplateEnv) (field : String) (context : Json)
    (path : List (Option Nat)) : Json → Except String Json
  | .str s =>
    match classify s with
    | .literal => .ok (.str s)
    | .single inner => withContext (jsonLocation field path) (evalSingle env context inner)
    | .mixed =>
      .error (jsonLocation field path ++ ": a json field takes a literal value or a single " ++
        "\x7b\x7b expression \x7d\x7d")
  | .obj fields => (renderJsonFields env field context path fields).map .obj
  | .arr items => (renderJsonItems env field context path 0 items).map .arr
  | other => .ok other

def renderJsonFields (env : TemplateEnv) (field : String) (context : Json)
    (path : List (Option Nat)) :
    List (String × Json) → Except String (List (String × Json))
  | [] => .ok []
  | (key, value) :: rest => do
      let rendered ← renderJsonValue env field context (path ++ [none]) value
      let rest ← renderJsonFields env field context path rest
      return (key, rendered) :: rest

def renderJsonItems (env : TemplateEnv) (field : String) (context : Json)
    (path : List (Option Nat)) (index : Nat) : List Json → Except String (List Json)
  | [] => .ok []
  | value :: rest => do
      let rendered ← renderJsonValue env field context (path ++ [some index]) value
      let rest ← renderJsonItems env field context path (index + 1) rest
      return rendered :: rest

end

def renderDefault (env : TemplateEnv) (context : Json) (fieldName fieldType : String)
    (value : Json) : Except String Json :=
  if fieldType = "json" then renderJsonValue env fieldName context [] value
  else
    match value with
    | .str s =>
      if containsText s "\x7b\x7b" then (env.renderTemplate s context).map .str
      else renderValueDeep env context [] value
    | _ => renderValueDeep env context [] value

def mergeDefault (env : TemplateEnv) (context : Json) (merged : Fields)
    (entry : String × InputFieldDef) : Except String Fields :=
  if (Fields.get entry.1 merged).isSome then .ok merged
  else
    match entry.2.default with
    | none => .ok merged
    | some value => do
        let rendered ← withContext "Failed to merge action input defaults"
          (withContext ("Failed to render default template for input field '" ++ entry.1 ++ "'")
            (renderDefault env context entry.1 entry.2.fieldType value))
        return Fields.insert entry.1 rendered merged

def mergeActionDefaults (env : TemplateEnv) (renderedInput : Json) (schema : InputSchema)
    (context : Json) : Except String Json := do
  let merged ← schema.entries.foldlM (mergeDefault env context) (asMap renderedInput)
  return .obj merged

/-! ## Roles -/

structure RoleConfig where
  workspace : String
  config : WorkspaceConfig
  deriving DecidableEq

structure RoleScope where
  caller : RoleConfig
  actionOwner : Option RoleConfig := none
  taskOwner : Option RoleConfig := none
  others : WorkspaceLookup

def roleLookup (base : WorkspaceLookup) (first : RoleConfig) (second : Option RoleConfig) :
    WorkspaceLookup where
  localName := base.localName
  get name :=
    if name = first.workspace then .found first.config
    else
      match second with
      | some role => if name = role.workspace then .found role.config else base.get name
      | none => base.get name
  offline := base.offline

def mergedSameWorkspace (value fallback : WorkspaceConfig) : WorkspaceConfig where
  connections := value.connections ++ fallback.connections
  connectionTypes := value.connectionTypes ++ fallback.connectionTypes

def bucketScopeAt (samePtr : Bool) (value schemaRole : RoleConfig) (others : WorkspaceLookup) :
    ResolveScope :=
  if value.workspace = schemaRole.workspace then
    let cfg :=
      if samePtr then value.config else mergedSameWorkspace value.config schemaRole.config
    { lookup := roleLookup others ⟨value.workspace, cfg⟩ none
      schemaWs := schemaRole.workspace
      valueWs := value.workspace
      fallbackWs := none }
  else
    { lookup := roleLookup others value (some schemaRole)
      schemaWs := schemaRole.workspace
      valueWs := value.workspace
      fallbackWs := some schemaRole.workspace }

def resolveBucketByRoleAt (samePtr : Bool) (input : Json) (schema : InputSchema)
    (value schemaRole : RoleConfig) (others : WorkspaceLookup) : Except String Json :=
  resolveConnectionInputsScoped input schema (bucketScopeAt samePtr value schemaRole others)

def bucketScope (value schemaRole : RoleConfig) (others : WorkspaceLookup) : ResolveScope :=
  bucketScopeAt (value.config = schemaRole.config) value schemaRole others

def resolveBucketByRole (input : Json) (schema : InputSchema) (value schemaRole : RoleConfig)
    (others : WorkspaceLookup) : Except String Json :=
  resolveConnectionInputsScoped input schema (bucketScope value schemaRole others)

inductive ProvenanceBucket where
  | caller
  | actionDefault
  deriving DecidableEq

def ProvenanceBucket.debugText : ProvenanceBucket → String
  | .caller => "Caller"
  | .actionDefault => "ActionDefault"

structure ProvenanceError where
  bucket : ProvenanceBucket
  text : String
  deriving DecidableEq

def tagged {α : Type} (bucket : ProvenanceBucket) : Except String α → Except ProvenanceError α
  | .ok value => .ok value
  | .error e => .error ⟨bucket, "resolving " ++ bucket.debugText ++ " inputs: " ++ e⟩

def ProvenanceError.withContext {α : Type} (context : String) :
    Except ProvenanceError α → Except ProvenanceError α
  | .ok value => .ok value
  | .error e => .error { e with text := context ++ ": " ++ e.text }

def prepareActionInputRoles (env : TemplateEnv) (renderedInput : Json) (schema : InputSchema)
    (roles : RoleScope) : Except ProvenanceError Json := do
  let owner := roles.actionOwner.getD roles.caller
  let callerResolved ← ProvenanceError.withContext "Failed to resolve action connection inputs"
    (tagged .caller (resolveBucketByRole renderedInput schema roles.caller owner roles.others))
  let secretsCtx := Json.obj [("secret", .obj (Fields.collect owner.config.secrets))]
  let merged ← ProvenanceError.withContext "Failed to merge action input defaults"
    (tagged .actionDefault (mergeActionDefaults env callerResolved schema secretsCtx))
  ProvenanceError.withContext "Failed to resolve action connection inputs"
    (tagged .actionDefault (resolveBucketByRole merged schema owner owner roles.others))

def checkBoundary (schema : InputSchema) (input : Json) : Except String Unit := do
  for (field, fieldDef) in schema.entries do
    if primitiveTypes.contains fieldDef.fieldType = false then
      match input with
      | .obj fields =>
        match Fields.get field fields with
        | some value =>
          if value.asStr.isNone then
            throw ("input '" ++ field ++ "': a connection passed across workspaces must be " ++
              "a connection name, got " ++ value.typeName)
        | none => pure ()
      | _ => pure ()

def resolveProvenanceBucket (input : Json) (schema : InputSchema) (value task : RoleConfig)
    (others : WorkspaceLookup) : Except String Json := do
  if value.workspace ≠ task.workspace then checkBoundary schema input
  resolveBucketByRole input schema value task others

def resolveTaskInputByProvenanceRoles (callerInput actionDefaults : Json) (schema : InputSchema)
    (roles : RoleScope) : Except ProvenanceError Json := do
  let task := roles.taskOwner.getD roles.caller
  let action := roles.actionOwner.getD roles.caller
  let caller ← tagged .caller
    (resolveProvenanceBucket callerInput schema roles.caller task roles.others)
  let defaults ← tagged .actionDefault
    (resolveProvenanceBucket actionDefaults schema action task roles.others)
  -- `entry(k).or_insert(v)`: a caller's field keeps the caller's value
  return .obj ((asMap defaults).foldl
    (fun out field => if (Fields.get field.1 out).isSome then out
      else Fields.insert field.1 field.2 out)
    (asMap caller))

end Stroem.Connections
