import ApexPaths.Reserved
import ApexPaths.Source.Cursor
import ApexPaths.TypeName

/-!
Reading expressions. Each layer takes the reader of a nested expression as an argument;
`expressionWithin` ties them together, one layer for every level of nesting.
-/

namespace ApexPaths.Source.Reader
set_option autoImplicit false

/-! ## Names -/

/-- The receiver that a dotted list of names stands for. -/
def reference (start : Token) (names : List String) : Tree :=
  if names.isEmpty then { kind := .emptyReferenceExpression, span := start.span }
  else { kind := .referenceExpression, span := start.span, props := [(.spelled .names, .texts names)] }

def arguments (expr : Reader Tree) : Reader (List Tree) := do
  let _ ← expect "("
  let args ← bounded (itemsUntil ")" expr)
  let _ ← expect ")"
  return args

/-- The call of a method on dotted names. -/
def callOn (expr : Reader Tree) (start : Token) (names : List String) (method : String) : Reader Tree := do
  let args ← arguments expr
  return {
    kind := .methodCallExpression
    span := ← spanFrom start
    props := [(.spelled .methodName, .text method),
      (.spelled .fullMethodName, .text (Text.joinStrings "." (names ++ [method])))]
    children := reference start names :: args }

/-- The names after dots, up to a name that is called and up to `class`. -/
def chainedNames : Nat → Reader (List String)
  | 0 => fail .exhausted
  | n + 1 => do
    let next ← ahead 1
    if (← check ".") && next.identifier?.isSome && !next.isWord "class" && !(← ahead 2).isPunct "(" then
      let _ ← advance
      let name ← identifier
      return name :: (← chainedNames n)
    else return []

/-- `a`, `a.b.c`, `m()`, `A.b.m()` or `A.class`. -/
def nameChain (expr : Reader Tree) : Reader Tree := do
  let start ← peek
  let first ← identifier
  let names := first :: (← bounded chainedNames)
  let name := names.getLast?.getD ""
  let qualifiers := names.dropLast
  if ← check "(" then callOn expr start qualifiers name
  else if (← check ".") && (← ahead 1).isWord "class" then
    let _ ← advance
    let _ ← advance
    return {
      kind := .classRefExpression
      span := ← spanFrom start
      props := [(.spelled .type, .text (Text.joinStrings "." names))] }
  else if (← check ".") && (← ahead 1).identifier?.isSome && (← ahead 2).isPunct "(" then
    let _ ← advance
    let method ← identifier
    callOn expr start names method
  else
    return {
      kind := .variableExpression
      span := ← spanFrom start
      props := [(.spelled .name, .text name)]
      children := [reference start qualifiers] }

/-! ## Construction -/

/-- One element of a collection literal; a map's element is a pair. -/
def entry (expr : Reader Tree) (isMap : Bool) : Reader Tree := do
  let start ← peek
  let first ← expr
  if isMap then
    let _ ← expect "=>"
    let value ← expr
    return { kind := .mapEntryNode, span := ← spanFrom start, children := [first, value] }
  else return first

/-- `new` with a type: a sized array, a constructor call or a collection literal. -/
def construction (expr : Reader Tree) : Reader Tree := do
  let start ← expectWord "new"
  let ty ← typeName
  if ← eat "[" then
    let _ ← expr
    let _ ← expect "]"
    return {
      kind := .newObjectExpression
      span := ← spanFrom start
      props := [(.spelled .type, .text (ty ++ "[]"))] }
  else if ← check "(" then
    let args ← arguments expr
    return {
      kind := .newObjectExpression
      span := ← spanFrom start
      props := [(.spelled .type, .text ty)]
      children := args }
  else
    let _ ← expect openBrace
    let base := TypeName.base (TypeName.canonical ty)
    let entries ← bounded (itemsUntil closeBrace (entry expr (base == "Map")))
    let _ ← expect closeBrace
    let kind := if base == "Map" then .newMapLiteralExpression
      else if base == "Set" then .newSetLiteralExpression
      else .newListLiteralExpression
    return { kind, span := ← spanFrom start, props := [(.spelled .type, .text ty)], children := entries }

/-! ## Primary and postfix expressions -/

/-- The tag and the text of a literal token. -/
def literal? (token : Token) : Option (String × String) :=
  match token.kind with
  | .text value => some (Reserved.literalString, value)
  | .integer value => some (Reserved.literalInteger, toString value)
  | .long value => some (Reserved.literalLong, toString value)
  | .decimal digits => some (Reserved.literalDecimal, digits)
  | _ =>
    if token.isWord "true" then some (Reserved.literalTrue, "true")
    else if token.isWord "false" then some (Reserved.literalFalse, "false")
    else if token.isWord "null" then some (Reserved.literalNull, "null")
    else none

/-- `this` or `super`, alone or as a constructor call. -/
def selfReference (expr : Reader Tree) (start : Token) : Reader Tree := do
  let isThis := start.isWord "this"
  let _ ← advance
  if ← check "(" then
    let args ← arguments expr
    let kind := if isThis then .thisMethodCallExpression else .superMethodCallExpression
    return { kind, span := ← spanFrom start, children := args }
  else
    let kind := if isThis then .thisVariableExpression else .superVariableExpression
    return { kind, span := ← spanFrom start }

/-- An operand without operators around it. -/
def primary (expr : Reader Tree) : Reader Tree := do
  let start ← peek
  match literal? start with
  | some (tag, value) =>
    let _ ← advance
    return {
      kind := .literalExpression
      span := ← spanFrom start
      props := [(.fact .literalType, .text tag), (.fact .value, .text value)] }
  | none =>
    match start.kind with
    | .query text =>
      let _ ← advance
      return { kind := .soqlExpression, span := ← spanFrom start, props := [(.fact .query, .text text)] }
    | _ =>
      if ← eat "(" then
        let inner ← expr
        let _ ← expect ")"
        return inner
      else if start.isWord "this" || start.isWord "super" then selfReference expr start
      else if start.isWord "new" && (← ahead 1).identifier?.isSome then construction expr
      else if start.identifier?.isSome then nameChain expr
      else unexpected .expression

/-- The member accesses, calls, indexings and steps after an operand. -/
def postfixTail (expr : Reader Tree) (start : Token) (operand : Tree) : Nat → Reader Tree
  | 0 => fail .exhausted
  | n + 1 => do
    if (← check ".") && (← ahead 1).identifier?.isSome then
      let _ ← advance
      let name ← identifier
      if ← check "(" then
        let args ← arguments expr
        let call : Tree := {
          kind := .methodCallExpression
          span := ← spanFrom start
          props := [(.spelled .methodName, .text name), (.spelled .fullMethodName, .text name)]
          children := operand :: args }
        postfixTail expr start call n
      else
        let access : Tree := {
          kind := .variableExpression
          span := ← spanFrom start
          props := [(.spelled .name, .text name)]
          children := [operand] }
        postfixTail expr start access n
    else if ← eat "[" then
      let index ← expr
      let _ ← expect "]"
      let load : Tree := { kind := .arrayLoadExpression, span := ← spanFrom start, children := [operand, index] }
      postfixTail expr start load n
    else
      match ← checkAny ["++", "--"] with
      | some op =>
        let _ ← advance
        let step : Tree := {
          kind := .postfixExpression
          span := ← spanFrom start
          props := [(.fact .operator, .text op)]
          children := [operand] }
        postfixTail expr start step n
      | none => return operand

def postfixExpression (expr : Reader Tree) : Reader Tree := do
  let start ← peek
  let operand ← primary expr
  bounded (postfixTail expr start operand)

/-! ## Operators -/

/-- Whether the next token may start the operand of a cast. -/
def startsOperand (token : Token) : Bool :=
  match token.kind with
  | .identifier _ => !token.isWord "instanceof"
  | .text _ | .integer _ | .long _ | .decimal _ | .query _ => true
  | .punct mark => mark == "(" || mark == "!"
  | _ => false

/-- A type in parentheses that an operand follows. -/
def castHeader : Reader String := do
  let _ ← advance
  let ty ← typeName
  let _ ← expect ")"
  if startsOperand (← peek) then return ty else unexpected .castOperand

/-- Signs, negations, steps and casts before an operand. -/
def unaryOver (operand : Reader Tree) : Nat → Reader Tree
  | 0 => fail .exhausted
  | n + 1 => do
    let start ← peek
    match ← checkAny ["!", "-", "+", "++", "--"] with
    | some op =>
      let _ ← advance
      let inner ← unaryOver operand n
      return {
        kind := .prefixExpression
        span := ← spanFrom start
        props := [(.fact .operator, .text op)]
        children := [inner] }
    | none =>
      let cast ← if ← check "(" then attempt castHeader else pure none
      match cast with
      | some ty =>
        let inner ← unaryOver operand n
        return {
          kind := .castExpression
          span := ← spanFrom start
          props := [(.spelled .type, .text ty)]
          children := [inner] }
      | none => operand

def unaryWith (expr : Reader Tree) : Reader Tree := bounded (unaryOver (postfixExpression expr))

/-- One level of binding strength. -/
structure Level where
  operators : List String
  kind : NodeKind
  /-- Whether `instanceof` binds at this level. -/
  hostsTypeTest : Bool := false

def levels : List Level :=
  [⟨["||"], .booleanExpression, false⟩,
   ⟨["&&"], .booleanExpression, false⟩,
   ⟨["==", "!=", "===", "!=="], .booleanExpression, false⟩,
   ⟨["<", ">", "<=", ">="], .booleanExpression, true⟩,
   ⟨["+", "-"], .binaryExpression, false⟩,
   ⟨["*", "/", "%"], .binaryExpression, false⟩]

/-- The operators of one level after a left operand, grouped to the left. -/
def binaryTail (level : Level) (operand : Reader Tree) (start : Token) (left : Tree) : Nat → Reader Tree
  | 0 => fail .exhausted
  | n + 1 => do
    if level.hostsTypeTest && (← checkWord "instanceof") then
      let _ ← advance
      let ty ← typeName
      let test : Tree := {
        kind := .instanceOfExpression
        span := ← spanFrom start
        props := [(.spelled .type, .text ty)]
        children := [left] }
      binaryTail level operand start test n
    else
      match ← checkAny level.operators with
      | some op =>
        let _ ← advance
        let right ← operand
        let joined : Tree := {
          kind := level.kind
          span := ← spanFrom start
          props := [(.fact .operator, .text op)]
          children := [left, right] }
        binaryTail level operand start joined n
      | none => return left

def binaryOver (operand : Reader Tree) : List Level → Reader Tree
  | [] => operand
  | level :: tighter => do
    let start ← peek
    let left ← binaryOver operand tighter
    bounded (binaryTail level (binaryOver operand tighter) start left)

/-- A condition with its two outcomes, or just an operand; the second outcome may be another choice. -/
def ternaryOver (expr operand : Reader Tree) : Nat → Reader Tree
  | 0 => fail .exhausted
  | n + 1 => do
    let start ← peek
    let condition ← operand
    if ← eat "?" then
      let whenTrue ← expr
      let _ ← expect ":"
      let whenFalse ← ternaryOver expr operand n
      return { kind := .ternaryExpression, span := ← spanFrom start, children := [condition, whenTrue, whenFalse] }
    else return condition

def assignmentMarks : List String := ["=", "+=", "-=", "*=", "/="]

/-- An expression whose nested expressions are read by `expr`. Assignment groups to the right. -/
def expressionWith (expr : Reader Tree) : Reader Tree := do
  let start ← peek
  let target ← bounded (ternaryOver expr (binaryOver (unaryWith expr) levels))
  match ← checkAny assignmentMarks with
  | some op =>
    let _ ← advance
    let value ← expr
    return {
      kind := .assignmentExpression
      span := ← spanFrom start
      props := [(.fact .operator, .text op)]
      children := [target, value] }
  | none => return target

def expressionWithin : Nat → Reader Tree
  | 0 => fail .exhausted
  | n + 1 => expressionWith (expressionWithin n)

def expression : Reader Tree := bounded expressionWithin

/-- An operand with its signs and casts, but no binary operators. -/
def unary : Reader Tree := unaryWith expression

end ApexPaths.Source.Reader
