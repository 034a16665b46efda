import ApexPaths.Text.Case
import ApexPaths.Text.Integer

/-!
Properties of tree nodes and graph vertices. A key that holds a name has a second, folded key, which
holds the same text in lower case; `PropertyMap.assign` keeps the two in step.
-/

namespace ApexPaths

/-- Keys whose values are names. -/
inductive NameKey where
  | name
  | definingType
  | superClassName
  | interfaceNames
  | methodName
  | fullMethodName
  | type
  | returnType
  | targetName
  | names
  | outerType
  deriving DecidableEq, Repr, BEq

/-- Keys whose values are facts other than names. -/
inductive FactKey where
  | usages
  | beginLine
  | beginColumn
  | endLine
  | childIdx
  | firstChild
  | lastChild
  | fileName
  | isStandard
  | isStatic
  | isConstructor
  | isAbstract
  | isImplicit
  | isSynthetic
  | syntheticKind
  | propertyName
  | modifiers
  | arity
  | operator
  | literalType
  | value
  | values
  | query
  | hasInit
  | hasCondition
  | hasUpdate
  | hasFinally
  | hasGetter
  | hasSetter
  | endScopes
  | unresolvedSupertypes
  deriving DecidableEq, Repr, BEq

/-- A property key: a name as it is spelled, the same name in lower case, or another fact. -/
inductive Key where
  | spelled (key : NameKey)
  | folded (key : NameKey)
  | fact (key : FactKey)
  deriving DecidableEq, Repr, BEq

def NameKey.all : List NameKey :=
  [.name, .definingType, .superClassName, .interfaceNames, .methodName, .fullMethodName, .type, .returnType,
  .targetName, .names, .outerType]

def NameKey.label : NameKey → String
  | .name => "Name"
  | .definingType => "DefiningType"
  | .superClassName => "SuperClassName"
  | .interfaceNames => "InterfaceNames"
  | .methodName => "MethodName"
  | .fullMethodName => "FullMethodName"
  | .type => "Type"
  | .returnType => "ReturnType"
  | .targetName => "TargetName"
  | .names => "Names"
  | .outerType => "OuterType"

def FactKey.all : List FactKey := [
  .usages, .beginLine, .beginColumn, .endLine, .childIdx, .firstChild, .lastChild, .fileName,
  .isStandard, .isStatic, .isConstructor, .isAbstract, .isImplicit, .isSynthetic, .syntheticKind,
  .propertyName, .modifiers, .arity, .operator, .literalType, .value, .values, .query, .hasInit,
  .hasCondition, .hasUpdate, .hasFinally, .hasGetter, .hasSetter, .endScopes, .unresolvedSupertypes]

def FactKey.label : FactKey → String
  | .usages => "Usages"
  | .beginLine => "BeginLine"
  | .beginColumn => "BeginColumn"
  | .endLine => "EndLine"
  | .childIdx => "ChildIdx"
  | .firstChild => "FirstChild"
  | .lastChild => "LastChild"
  | .fileName => "FileName"
  | .isStandard => "IsStandard"
  | .isStatic => "IsStatic"
  | .isConstructor => "IsConstructor"
  | .isAbstract => "IsAbstract"
  | .isImplicit => "IsImplicit"
  | .isSynthetic => "IsSynthetic"
  | .syntheticKind => "SyntheticKind"
  | .propertyName => "PropertyName"
  | .modifiers => "Modifiers"
  | .arity => "Arity"
  | .operator => "Operator"
  | .literalType => "LiteralType"
  | .value => "Value"
  | .values => "Values"
  | .query => "Query"
  | .hasInit => "HasInit"
  | .hasCondition => "HasCondition"
  | .hasUpdate => "HasUpdate"
  | .hasFinally => "HasFinally"
  | .hasGetter => "HasGetter"
  | .hasSetter => "HasSetter"
  | .endScopes => "EndScopes"
  | .unresolvedSupertypes => "UnresolvedSupertypes"

namespace Key

def all : List Key := NameKey.all.map .spelled ++ NameKey.all.map .folded ++ FactKey.all.map .fact

def label : Key → String
  | .spelled key => key.label
  | .folded key => key.label ++ "_CaseSafe"
  | .fact key => key.label

def ofLabel? (text : String) : Option Key := all.find? fun key => key.label == text

/-- The key of the lower-case copy, for keys that hold names. -/
def folded? : Key → Option Key
  | .spelled key => some (.folded key)
  | _ => none

end Key

/-- The value of a property. -/
inductive PropertyValue where
  | text (value : String)
  | int (value : Int)
  | flag (value : Bool)
  | texts (values : List String)
  deriving DecidableEq, Repr, Inhabited

namespace PropertyValue

def text? : PropertyValue → Option String
  | .text value => some value
  | _ => none

def int? : PropertyValue → Option Int
  | .int value => some value
  | _ => none

def flag? : PropertyValue → Option Bool
  | .flag value => some value
  | _ => none

def texts? : PropertyValue → Option (List String)
  | .texts values => some values
  | _ => none

/-- The copy in lower case; numbers and flags stay. -/
def fold : PropertyValue → PropertyValue
  | .text value => .text (Text.lower value)
  | .texts values => .texts (values.map Text.lower)
  | value => value

/-- Comparison with a plain text: a text by equality, a list by membership, a number or flag by its
written form. -/
def matchesText (text : String) : PropertyValue → Bool
  | .text value => value == text
  | .texts values => values.contains text
  | .int value => Text.int64? text == some value
  | .flag value => text == (if value then "true" else "false")

def display : PropertyValue → String
  | .text value => value
  | .int value => toString value
  | .flag value => if value then "true" else "false"
  | .texts values => "[" ++ Text.joinStrings ", " values ++ "]"

end PropertyValue

/-- Properties by key. Each key occurs at most once. -/
abbrev PropertyMap := List (Key × PropertyValue)

namespace PropertyMap

def get? (props : PropertyMap) (key : Key) : Option PropertyValue := (props.find? (·.1 == key)).map (·.2)

/-- Write one key, in place if it is present. -/
def put (props : PropertyMap) (key : Key) (value : PropertyValue) : PropertyMap :=
  match props with
  | [] => [(key, value)]
  | (k, v) :: rest => if k == key then (key, value) :: rest else (k, v) :: put rest key value

/-- Write a key and, if it holds a name, its lower-case copy. -/
def assign (props : PropertyMap) (key : Key) (value : PropertyValue) : PropertyMap :=
  match key.folded? with
  | some shadow => (props.put key value).put shadow value.fold
  | none => props.put key value

def text? (props : PropertyMap) (key : Key) : Option String := (props.get? key).bind PropertyValue.text?

def int? (props : PropertyMap) (key : Key) : Option Int := (props.get? key).bind PropertyValue.int?

def flag? (props : PropertyMap) (key : Key) : Option Bool := (props.get? key).bind PropertyValue.flag?

def texts? (props : PropertyMap) (key : Key) : Option (List String) := (props.get? key).bind PropertyValue.texts?

end PropertyMap

end ApexPaths
