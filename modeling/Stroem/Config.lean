import Stroem.Foundation.Dictionary
import Stroem.Workflow

/-!
# Workspace configurations

The parsed form of the workflow files: actions, tasks with their flows and hooks, and input
schemas, with every field that holds the name of another item.  The fields that are only carried
along are kept together as `rest`.
-/

namespace Stroem.Config

open Foundation

structure InputFieldDef where
  fieldType : String
  rest : Fields := []
  deriving DecidableEq

inductive AgentToolRef where
  | task (task : String) (gitRef : Option String)
  | mcp (mcp : String)
  deriving DecidableEq

structure ActionDef where
  actionType : String
  task : Option String := none
  tools : List AgentToolRef := []
  input : Dict String InputFieldDef := ∅
  rest : Fields := []
  deriving DecidableEq

structure HookDef where
  action : String
  rest : Fields := []
  deriving DecidableEq

structure StepFields where
  name : Option String := none
  description : Option String := none
  dependsOn : List DependsOnEntry := []
  continueOnFailure : Bool := false
  timeout : Option Nat := none
  «when» : Option String := none
  forEach : Option Json := none
  sequential : Bool := false
  retry : Option RetryConfig := none

structure FlowStep extends StepFields where
  action : String
  input : Dict String Json := ∅
  legacyContinueWhenSkipped : Option Bool := none
  gitRef : Option String := none
  inlineAction : Option ActionDef := none

structure TaskDef where
  input : Dict String InputFieldDef := ∅
  flow : Dict String FlowStep := ∅
  onSuccess : List HookDef := []
  onError : List HookDef := []
  onSuspended : List HookDef := []
  onCancel : List HookDef := []
  rest : Fields := []

structure ConnectionTypeDef where
  properties : Fields
  deriving DecidableEq

structure WorkspaceConfig where
  connectionTypes : Dict String ConnectionTypeDef := ∅
  actions : Dict String ActionDef := ∅
  tasks : Dict String TaskDef := ∅

end Stroem.Config
