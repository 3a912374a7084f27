import Mathlib.Data.List.Basic
import Mathlib.Tactic.Common

/-!
# Dependency trees

A step's `depends_on` is a list of entries, read as an implicit `all` group: a bare step name,
a step with the set of outcomes it is accepted with, or a nested `all`/`any` group.
-/

namespace Stroem

inductive Outcome where
  | completed
  | failed
  | cancelled
  | skipped
  | omitted
  deriving DecidableEq

inductive AcceptSet where
  | any
  | outcomes (outcomes : List Outcome)
  deriving DecidableEq

namespace AcceptSet

def contains (accept : AcceptSet) (outcome : Outcome) : Bool :=
  match accept with
  | .any => true
  | .outcomes v => v.contains outcome

def defaultCompletedOnly : AcceptSet :=
  .outcomes [.completed]

end AcceptSet

inductive DependsOnEntry where
  | name (step : String)
  | step (step : String) (accept : AcceptSet)
  | all (entries : List DependsOnEntry)
  | any (entries : List DependsOnEntry)

mutual

def DependsOnEntry.names : DependsOnEntry → List String
  | .name n => [n]
  | .step n _ => [n]
  | .all entries => collectNames entries
  | .any entries => collectNames entries

def collectNames : List DependsOnEntry → List String
  | [] => []
  | e :: es => e.names ++ collectNames es

end

/-! ## The meaning of a tree -/

mutual

/--
The tree read over the outcomes of its steps: a step without an outcome satisfies no entry
that names it.
-/
def DependsOnEntry.Sat (outcome : String → Option Outcome) : DependsOnEntry → Prop
  | .name n => outcome n = some .completed
  | .step n accept => ∃ o, outcome n = some o ∧ accept.contains o = true
  | .all entries => SatAll outcome entries
  | .any entries => SatAny outcome entries

def SatAll (outcome : String → Option Outcome) : List DependsOnEntry → Prop
  | [] => True
  | e :: es => e.Sat outcome ∧ SatAll outcome es

def SatAny (outcome : String → Option Outcome) : List DependsOnEntry → Prop
  | [] => False
  | e :: es => e.Sat outcome ∨ SatAny outcome es

end

end Stroem
