import Stroem.Json

/-!
# Pods of the Kubernetes runner

The runner builds the manifest of a pod as a JSON value, checks the overrides of the action for
settings that it forbids, and merges the overrides into the manifest.
-/

namespace Stroem.Kubernetes

/-! ## JSON values -/

def object (entries : List (String × Json)) : Json := .obj (Fields.collect entries)

def field (key : String) : Json → Option Json
  | .obj fields => Fields.get key fields
  | _ => none

def asBool : Json → Option Bool
  | .bool b => some b
  | _ => none

def asArray : Json → Option (List Json)
  | .arr items => some items
  | _ => none

def modifyField (key : String) (f : Json → Json) : Json → Json
  | .obj fields => .obj (Fields.insert key (f ((Fields.get key fields).getD .null)) fields)
  | .null => .obj [(key, f .null)]
  | value => value

def pushOrCreate (item : Json) : Json → Json
  | .arr items => .arr (items ++ [item])
  | _ => .arr [item]

def modifyFirst (p : Json → Bool) (f : Json → Json) : List Json → List Json
  | [] => []
  | item :: items => if p item then f item :: items else item :: modifyFirst p f items

def mapArray (f : List Json → List Json) : Json → Json
  | .arr items => .arr (f items)
  | value => value

/-! ## Merging -/

def itemName (item : Json) : Option String := (field "name" item).bind Json.asStr

def isNamedArray (items : List Json) : Bool :=
  !items.isEmpty && items.all fun item => (itemName item).isSome

def mergeFirst (name : String) (merge : Json → Json) (item : Json) : List Json → List Json
  | [] => [item]
  | entry :: entries =>
    if itemName entry = some name then merge entry :: entries
    else entry :: mergeFirst name merge item entries

mutual

def mergeJson : Json → Json → Json
  | .obj base, .obj overrides => .obj (mergeFields base overrides)
  | .arr base, .arr overrides =>
    if isNamedArray base && isNamedArray overrides then .arr (mergeItems base overrides)
    else .arr overrides
  | _, overrides => overrides

def mergeFields : Fields → Fields → Fields
  | base, [] => base
  | base, (key, val) :: overrides =>
    mergeFields (Fields.insert key (mergeJson ((Fields.get key base).getD .null) val) base)
      overrides

def mergeItems : List Json → List Json → List Json
  | base, [] => base
  | base, item :: overrides =>
    mergeItems
      (match itemName item with
        | some name => mergeFirst name (fun entry => mergeJson entry item) item base
        | none => base)
      overrides

end

/-! ## Validation -/

def rejected (what : String) : String := "Pod manifest override rejected: " ++ what

def securityFlag (flag : String) (container : Json) : Option Bool :=
  ((field "securityContext" container).bind (field flag)).bind asBool

def dockerSocket : String := "/var/run/docker.sock"

def mountsSocket (container : Json) : Bool :=
  (((field "volumeMounts" container).bind asArray).getD []).any fun mount =>
    decide ((field "mountPath" mount).bind Json.asStr = some dockerSocket)

def checkContainer (label : String) (container : Json) : Except String Unit :=
  if securityFlag "privileged" container = some true then
    .error (rejected ("privileged containers are not allowed (" ++ label ++ ")"))
  else if securityFlag "allowPrivilegeEscalation" container = some true then
    .error (rejected ("allowPrivilegeEscalation is not allowed (" ++ label ++ ")"))
  else if mountsSocket container then
    .error (rejected ("mounting /var/run/docker.sock is not allowed (" ++ label ++ ")"))
  else .ok ()

def checkContainers (label : String) : List Json → Except String Unit
  | [] => .ok ()
  | container :: containers => do
      checkContainer label container
      checkContainers label containers

def checkHostFlag (flag : String) (spec : Json) : Except String Unit :=
  if (field flag spec).bind asBool = some true then
    .error (rejected (flag ++ " is not allowed"))
  else .ok ()

def checkVolumes (volumes : List Json) : Except String Unit :=
  if volumes.any fun volume => (field "hostPath" volume).isSome then
    .error (rejected "hostPath volumes are not allowed")
  else .ok ()

def checkSpec (spec : Json) : Except String Unit := do
  checkHostFlag "hostNetwork" spec
  checkHostFlag "hostPID" spec
  checkHostFlag "hostIPC" spec
  checkVolumes (((field "volumes" spec).bind asArray).getD [])
  checkContainers "containers" (((field "containers" spec).bind asArray).getD [])
  checkContainers "initContainers" (((field "initContainers" spec).bind asArray).getD [])

def validatePodOverrides (overrides : Json) : Except String Unit :=
  match field "spec" overrides with
  | none => .ok ()
  | some spec => checkSpec spec

/-! ## The configuration of a run -/

inductive RunnerMode where
  | withWorkspace
  | noWorkspace
  deriving DecidableEq

inductive ScriptLanguage where
  | shell
  | python
  | javaScript
  | typeScript
  | go
  deriving DecidableEq

def ScriptLanguage.fromStrOpt : Option String → ScriptLanguage
  | none => .shell
  | some s =>
    if s = "python" then .python
    else if s = "javascript" ∨ s = "js" then .javaScript
    else if s = "typescript" ∨ s = "ts" then .typeScript
    else if s = "go" then .go
    else .shell

structure ClaimedInputFile where
  fileId : String
  safeName : String
  sizeBytes : Nat
  sha256 : String
  deriving DecidableEq

structure RunInputs where
  jobId : String
  files : List ClaimedInputFile
  deriving DecidableEq

structure RunConfig where
  cmd : Option String := none
  script : Option String := none
  env : List (String × String) := []
  image : Option String := none
  runnerMode : RunnerMode
  entrypoint : Option (List String) := none
  command : Option (List String) := none
  podManifestOverrides : Option Json := none
  language : Option String := none
  dependencies : List String := []
  interpreter : Option String := none
  args : List String := []
  stateDir : Option String := none
  globalStateDir : Option String := none
  workspaceRevision : Option String := none
  inputs : Option RunInputs := none

structure KubeRunner where
  serverUrl : String
  workerToken : String
  initImage : String := "curlimages/curl:latest"
  startupConfigmap : Option String := none
  deriving DecidableEq

structure Scripts where
  buildContainerScriptCmd : String → ScriptLanguage → List String → Option String →
    List String → List String
  buildContainerFileCmd : String → ScriptLanguage → List String → Option String →
    List String → List String
  formEncode : String → String

def defaultRunnerImage : String := "ghcr.io/fremvaerk/stroem-runner:latest"

/-! ## Shell texts -/

def isPlain (c : Char) : Bool :=
  c.isAlphanum || "-_./=:@".toList.contains c

def shellEscape (s : String) : String :=
  if s.toList.all isPlain then s
  else "'" ++ s.replace "'" "'\\''" ++ "'"

def initDownloadAttempts : Nat := 12

def initDownloadRetryDelaySecs : Nat := 5

def workspaceInitScript (url archive dest : String) : String :=
  "curl -sSf --retry " ++ toString (initDownloadAttempts - 1) ++ " --retry-delay " ++
    toString initDownloadRetryDelaySecs ++
    " -H \x22Authorization: Bearer $STROEM_WORKER_TOKEN\x22 -o " ++ shellEscape archive ++ " " ++
    shellEscape url ++ " && tar xzf " ++ shellEscape archive ++ " -C " ++ shellEscape dest

def inputsInitScript : String := "\n".intercalate
  ["set -eu",
    "i=0",
    "while [ \x22$i\x22 -lt \x22$STROEM_INPUT_COUNT\x22 ]; do",
    "  eval \x22id=\\$\x7bSTROEM_INPUT_$\x7bi\x7d_ID\x7d\x22",
    "  eval \x22name=\\$\x7bSTROEM_INPUT_$\x7bi\x7d_NAME\x7d\x22",
    "  eval \x22url=\\$\x7bSTROEM_INPUT_$\x7bi\x7d_URL\x7d\x22",
    "  eval \x22size=\\$\x7bSTROEM_INPUT_$\x7bi\x7d_SIZE\x7d\x22",
    "  eval \x22sha=\\$\x7bSTROEM_INPUT_$\x7bi\x7d_SHA256\x7d\x22",
    "  dir=\x22$STROEM_INPUTS_ROOT/$id\x22",
    "  f=\x22$dir/$name\x22",
    "  mkdir -p \x22$dir\x22 || \x7b echo \x22stroem-inputs-init: input file $id: " ++
      "cannot create its directory\x22 >&2; exit 1; \x7d",
    "  curl -sSf --retry 11 --retry-delay 5 " ++
      "-H \x22Authorization: Bearer $STROEM_WORKER_TOKEN\x22 -o \x22$f\x22 \x22$url\x22 || " ++
      "\x7b echo \x22stroem-inputs-init: input file $id: download failed\x22 >&2; exit 1; \x7d",
    "  [ \x22$(wc -c < \x22$f\x22 | tr -d ' ')\x22 = \x22$size\x22 ] || " ++
      "\x7b echo \x22stroem-inputs-init: input file $id: size does not match\x22 >&2; " ++
      "exit 1; \x7d",
    "  [ \x22$(sha256sum \x22$f\x22 | cut -d ' ' -f 1)\x22 = \x22$sha\x22 ] || " ++
      "\x7b echo \x22stroem-inputs-init: input file $id: SHA-256 does not match\x22 >&2; " ++
      "exit 1; \x7d",
    "  i=$((i + 1))",
    "done"]

/-! ## Builders -/

variable (scripts : Scripts) (runner : KubeRunner) (config : RunConfig)

def workspaceTarballUrl (workspaceName : String) : String :=
  let url := runner.serverUrl ++ "/worker/workspace/" ++ workspaceName ++ ".tar.gz"
  match config.workspaceRevision with
  | some rev => url ++ "?revision=" ++ scripts.formEncode rev
  | none => url

def trimEndSlashes (s : String) : String :=
  String.ofList (s.toList.reverse.dropWhile (· = '/')).reverse

def inputFileUrl (jobId fileId : String) : String :=
  trimEndSlashes runner.serverUrl ++ "/worker/jobs/" ++ jobId ++ "/input-files/" ++ fileId

def envVar (name value : String) : Json := object [("name", .str name), ("value", .str value)]

def mount (name mountPath : String) : Json :=
  object [("name", .str name), ("mountPath", .str mountPath)]

def readOnlyMount (name mountPath : String) : Json :=
  object [("name", .str name), ("mountPath", .str mountPath), ("readOnly", .bool true)]

def emptyDir (name : String) : Json := object [("name", .str name), ("emptyDir", object [])]

def canonicalInputsRoot : String := "/inputs"

def inputsVolume : String := "stroem-inputs"

def inputFileEnv (jobId : String) (i : Nat) (file : ClaimedInputFile) : List Json :=
  let start := "STROEM_INPUT_" ++ toString i
  [envVar (start ++ "_ID") file.fileId,
    envVar (start ++ "_NAME") file.safeName,
    envVar (start ++ "_URL") (inputFileUrl runner jobId file.fileId),
    envVar (start ++ "_SIZE") (toString file.sizeBytes),
    envVar (start ++ "_SHA256") file.sha256]

def inputsInitEnv (inputs : RunInputs) : List Json :=
  [envVar "STROEM_WORKER_TOKEN" runner.workerToken,
    envVar "STROEM_INPUTS_ROOT" canonicalInputsRoot,
    envVar "STROEM_INPUT_COUNT" (toString inputs.files.length)] ++
    (inputs.files.zipIdx.flatMap fun (file, i) => inputFileEnv runner inputs.jobId i file)

def inputsInitContainer (inputs : RunInputs) : Json :=
  object
    [("name", .str "stroem-inputs-init"),
      ("image", .str runner.initImage),
      ("command", Json.ofStrings ["sh", "-c", inputsInitScript]),
      ("env", .arr (inputsInitEnv runner inputs)),
      ("volumeMounts", .arr [mount inputsVolume canonicalInputsRoot])]

def isStep (container : Json) : Bool := decide (field "name" container = some (.str "step"))

def modifyStep (f : Json → Json) : Json → Json :=
  modifyField "containers" (mapArray (modifyFirst isStep f))

def injectInputsInit (pod : Json) : Json :=
  match config.inputs.filter fun inputs => !inputs.files.isEmpty with
  | none => pod
  | some inputs =>
    modifyField "spec" (fun spec =>
      modifyStep (modifyField "volumeMounts"
          (pushOrCreate (readOnlyMount inputsVolume canonicalInputsRoot)))
        (modifyField "volumes" (pushOrCreate (emptyDir inputsVolume))
          (modifyField "initContainers"
            (pushOrCreate (inputsInitContainer runner inputs)) spec))) pod

def plainShell : Bool :=
  ScriptLanguage.fromStrOpt config.language == .shell && config.dependencies.isEmpty &&
    config.interpreter.isNone && config.args.isEmpty

def workspaceCmd : List String :=
  let lang := ScriptLanguage.fromStrOpt config.language
  match config.cmd, config.script with
  | some command, _ =>
    if plainShell config then ["sh", "-c", command]
    else scripts.buildContainerScriptCmd command lang config.dependencies config.interpreter
      config.args
  | none, some script =>
    if plainShell config then ["sh", "-c", script]
    else scripts.buildContainerFileCmd script lang config.dependencies config.interpreter
      config.args
  | none, none => ["echo", "No command specified"]

def stateMounts : List Json :=
  (if config.stateDir.isSome then
    [readOnlyMount "state-vol" "/state", mount "state-out-vol" "/state-out"] else []) ++
    if config.globalStateDir.isSome then
      [readOnlyMount "global-state-vol" "/global-state",
        mount "global-state-out-vol" "/global-state-out"]
    else []

def stateVolumes : List Json :=
  (if config.stateDir.isSome then [emptyDir "state-vol", emptyDir "state-out-vol"] else []) ++
    if config.globalStateDir.isSome then
      [emptyDir "global-state-vol", emptyDir "global-state-out-vol"]
    else []

def podMetadata (podName : String) (labels : List (String × String)) : Json :=
  object [("name", .str podName), ("labels", object (labels.map fun (k, v) => (k, .str v)))]

def pod (podName : String) (labels : List (String × String)) (spec : Json) : Json :=
  object
    [("apiVersion", .str "v1"),
      ("kind", .str "Pod"),
      ("metadata", podMetadata podName labels),
      ("spec", spec)]

def workspaceInitContainer (workspaceName : String) : Json :=
  object
    [("name", .str "workspace-init"),
      ("image", .str runner.initImage),
      ("command", Json.ofStrings ["sh", "-c",
        workspaceInitScript (workspaceTarballUrl scripts runner config workspaceName)
          "/tmp/workspace.tar.gz" "/workspace"]),
      ("env", .arr [envVar "STROEM_WORKER_TOKEN" runner.workerToken]),
      ("volumeMounts", .arr [mount "workspace" "/workspace"])]

def buildPodJsonWithWorkspace (podName workspaceName : String)
    (labels : List (String × String)) (image : String) (env : List Json) : Json :=
  pod podName labels (object
    [("restartPolicy", .str "Never"),
      ("initContainers", .arr [workspaceInitContainer scripts runner config workspaceName]),
      ("containers", .arr [object
        [("name", .str "step"),
          ("image", .str image),
          ("command", Json.ofStrings (workspaceCmd scripts config)),
          ("env", .arr env),
          ("workingDir", .str "/workspace"),
          ("volumeMounts", .arr (mount "workspace" "/workspace" :: stateMounts config))]]),
      ("volumes", .arr (emptyDir "workspace" :: stateVolumes config))])

def containerCommand : List (String × Json) :=
  let lang := ScriptLanguage.fromStrOpt config.language
  let entrypoint := config.entrypoint.toList.map fun ep => ("command", Json.ofStrings ep)
  match config.command, config.cmd with
  | some command, _ => entrypoint ++ [("args", Json.ofStrings command)]
  | none, some cmd =>
    if config.entrypoint.isSome then entrypoint ++ [("args", Json.ofStrings [cmd])]
    else if lang == .shell && config.dependencies.isEmpty && config.interpreter.isNone then
      [("command", Json.ofStrings ["sh", "-c", cmd])]
    else
      [("command", Json.ofStrings (scripts.buildContainerScriptCmd cmd lang
        config.dependencies config.interpreter []))]
  | none, none => entrypoint

def buildPodJsonNoWorkspace (podName : String) (labels : List (String × String))
    (image : String) (env : List Json) : Json :=
  pod podName labels (object
    [("restartPolicy", .str "Never"),
      ("containers", .arr [object
        ([("name", .str "step"), ("image", .str image), ("env", .arr env)] ++
          containerCommand scripts config)])])

def startupPreamble : String :=
  "for s in /etc/stroem/startup.d/*.sh; do [ -f \x22$s\x22 ] && . \x22$s\x22; done; "

def wrapExec (command : List Json) : List Json :=
  [.str "sh", .str "-c", .str (startupPreamble ++ "exec " ++
    " ".intercalate (command.filterMap fun part => part.asStr.map shellEscape))]

def wrapCommand (command : List Json) : List Json :=
  match command with
  | shell :: flag :: script :: rest =>
    if (shell = .str "sh" ∨ shell = .str "bash") ∧ flag = .str "-c" then
      match script.asStr with
      | some text => shell :: flag :: .str (startupPreamble ++ text) :: rest
      | none => command
    else wrapExec command
  | _ => wrapExec command

def wrapCommandWithStartup (container : Json) : Json :=
  match (field "command" container).bind asArray with
  | none | some [] => container
  | some command => modifyField "command" (fun _ => .arr (wrapCommand command)) container

def injectStartupConfigmap (cmName : String) (pod : Json) : Json :=
  let volume := object
    [("name", .str "startup-scripts"),
      ("configMap", object [("name", .str cmName), ("defaultMode", .num (.int 493))])]
  modifyField "spec" (fun spec =>
    modifyStep (fun step => wrapCommandWithStartup (modifyField "volumeMounts"
        (pushOrCreate (readOnlyMount "startup-scripts" "/etc/stroem/startup.d")) step))
      (modifyField "volumes" (pushOrCreate volume) spec)) pod

def buildEnvArray : List Json := config.env.map fun (k, v) => envVar k v

def buildPodJson (podName workspaceName : String) (labels : List (String × String)) : Json :=
  let image := config.image.getD defaultRunnerImage
  let env := buildEnvArray config
  let built :=
    match config.runnerMode with
    | .withWorkspace =>
      buildPodJsonWithWorkspace scripts runner config podName workspaceName labels image env
    | .noWorkspace => buildPodJsonNoWorkspace scripts config podName labels image env
  let withInputs := injectInputsInit runner config built
  match config.runnerMode, runner.startupConfigmap with
  | .withWorkspace, some cmName => injectStartupConfigmap cmName withInputs
  | _, _ => withInputs

def buildPodSpec (podName workspaceName : String) (labels : List (String × String)) :
    Except String Json :=
  let built := buildPodJson scripts runner config podName workspaceName labels
  match config.podManifestOverrides with
  | none => .ok built
  | some overrides => do
      validatePodOverrides overrides
      .ok (mergeJson built overrides)

end Stroem.Kubernetes
