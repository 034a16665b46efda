import ApexPaths.Text.Case
import ApexPaths.Text.Quoted
import ApexPaths.Text.Split

/-!
How paths are expanded: whether calls are followed, which facts are recorded, which paths are dropped
or merged, and which vertices are watched.
-/

namespace ApexPaths
set_option autoImplicit false

/-- Merges paths of a callee that its caller cannot tell apart. -/
inductive Collapser where
  | returnValue
  deriving DecidableEq, Repr

/-- Drops paths that cannot be taken. -/
inductive Excluder where
  | contradictory
  deriving DecidableEq, Repr

/-- Records facts about variables. -/
inductive Constrainer where
  | nullCheck
  | booleanVariable
  deriving DecidableEq, Repr

/-- Picks the vertices to watch. -/
inductive Watcher where
  | dml
  /-- Calls of methods by simple or full names. -/
  | calls (names : List String)
  deriving DecidableEq, Repr

def Collapser.name : Collapser → String
  | .returnValue => "ReturnValueCollapser"

def Excluder.name : Excluder → String
  | .contradictory => "ContradictoryConstraintExcluder"

def Constrainer.name : Constrainer → String
  | .nullCheck => "NullCheckConstrainer"
  | .booleanVariable => "BooleanVariableConstrainer"

def Watcher.name : Watcher → String
  | .dml => "DmlStatementPredicate"
  | .calls _ => "MethodCallPredicate"

structure ExpansionOptions where
  followCalls : Bool := true
  collapsers : List Collapser := []
  excluders : List Excluder := []
  constrainers : List Constrainer := []
  watchers : List Watcher := []
  deriving DecidableEq, Repr, Inhabited

namespace ExpansionOptions

def hasPlugins (options : ExpansionOptions) : Bool :=
  !(options.collapsers.isEmpty && options.excluders.isEmpty && options.constrainers.isEmpty && options.watchers.isEmpty)

def describe (options : ExpansionOptions) : String :=
  let names (names : List String) : String := Text.quoted (Text.joinStrings "," names)
  "ExpanderConfig \x7b expand_method_calls: " ++ toString options.followCalls
    ++ ", collapsers: " ++ names (options.collapsers.map (·.name))
    ++ ", excluders: " ++ names (options.excluders.map (·.name))
    ++ ", constrainers: " ++ names (options.constrainers.map (·.name))
    ++ ", vertex_predicates: " ++ names (options.watchers.map (·.name)) ++ " \x7d"

end ExpansionOptions

end ApexPaths
