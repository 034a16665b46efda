import ApexPaths.Source.Expression

/-!
Reading statements. The body of a branch or a loop is always a block: a single statement is wrapped
in one with its own span.
-/

namespace ApexPaths.Source.Reader
set_option autoImplicit false

/-! ## Declarations of variables -/

/-- `final`, a type and a name, followed by one of the given marks. -/
def localHeader (followers : List String) : Reader (String × String) := do
  let _ ← eatWord "final"
  let ty ← typeName
  let name ← identifier
  if followers.any (← peek).isPunct then return (ty, name) else unexpected .declaration

/-- The declarators of one type, from the name of the first on. -/
def declarators (kind : NodeKind) (ty : String) (start : Token) (name : String) : Nat → Reader (List Tree)
  | 0 => fail .exhausted
  | n + 1 => do
    let initializer ← if ← eat "=" then pure [← expression] else pure []
    let declarator : Tree := {
      kind
      span := ← spanFrom start
      props := [(.spelled .name, .text name), (.spelled .type, .text ty)]
      children := initializer }
    if ← eat "," then
      let next ← peek
      let name ← identifier
      return declarator :: (← declarators kind ty next name n)
    else return [declarator]

/-- A declaration of variables after its header; the closing mark is left. -/
def variableDeclarations (start : Token) (ty name : String) : Reader Tree := do
  let children ← bounded (declarators .variableDeclaration ty start name)
  return {
    kind := .variableDeclarationStatements
    span := ← spanFrom start
    props := [(.spelled .type, .text ty)]
    children }

/-! ## Blocks and conditions -/

def blockWith (statement : Reader Tree) : Reader Tree := do
  let start ← expect openBrace
  let children ← bounded (itemsInBraces statement)
  return { kind := .blockStatement, span := ← spanFrom start, children }

/-- A block, or a single statement wrapped in one. -/
def bodyWith (statement : Reader Tree) : Reader Tree := do
  if ← check openBrace then blockWith statement
  else
    let inner ← statement
    return { kind := .blockStatement, span := inner.span, children := [inner] }

def condition : Reader Tree := do
  let expr ← expression
  return { kind := .standardCondition, span := expr.span, children := [expr] }

/-- An expression as a statement of the same span. -/
def expressionPart : Reader Tree := do
  let expr ← expression
  return { kind := .expressionStatement, span := expr.span, children := [expr] }

/-! ## Branches -/

/-- The branches of an `if` chain, and its last block if it has one. -/
def ifBranches (statement : Reader Tree) : Nat → Reader (List Tree)
  | 0 => fail .exhausted
  | n + 1 => do
    let start ← expectWord "if"
    let _ ← expect "("
    let test ← condition
    let _ ← expect ")"
    let body ← bodyWith statement
    let branch : Tree := { kind := .ifBlockStatement, span := ← spanFrom start, children := [test, body] }
    if ← eatWord "else" then
      if ← checkWord "if" then return branch :: (← ifBranches statement n)
      else return [branch, ← bodyWith statement]
    else return [branch]

def ifStatement (statement : Reader Tree) : Reader Tree := do
  let start ← peek
  let children ← bounded (ifBranches statement)
  return { kind := .ifElseBlockStatement, span := ← spanFrom start, children }

/-- One value of a `when`: a plain name, or an operand. -/
def whenCase : Reader Tree := do
  let start ← peek
  let next ← ahead 1
  let isName := start.identifier?.isSome && !start.isWord "null" && !start.isWord "true" && !start.isWord "false"
    && (next.isPunct "," || next.isPunct openBrace)
  if isName then
    let name ← identifier
    return { kind := .identifierCase, span := ← spanFrom start, props := [(.spelled .name, .text name)] }
  else
    let value ← unary
    return { kind := .literalCase, span := ← spanFrom start, children := [value] }

def typeCaseHeader : Reader (String × String) := do
  let ty ← typeName
  let name ← identifier
  if ← check openBrace then return (ty, name) else unexpected .typeCase

def whenBlock (statement : Reader Tree) : Reader Tree := do
  let start ← expectWord "when"
  if (← checkWord "else") && (← ahead 1).isPunct openBrace then
    let _ ← advance
    let body ← blockWith statement
    return { kind := .elseWhenBlock, span := ← spanFrom start, children := [body] }
  else
    match ← attempt typeCaseHeader with
    | some (ty, name) =>
      let body ← blockWith statement
      return {
        kind := .typeWhenBlock
        span := ← spanFrom start
        props := [(.spelled .type, .text ty), (.spelled .name, .text name)]
        children := [body] }
    | none =>
      let cases ← bounded (commaSeparated whenCase)
      let body ← blockWith statement
      return { kind := .valueWhenBlock, span := ← spanFrom start, children := cases ++ [body] }

/-- The branches of a switch up to the closing brace, which is left. -/
def whenBlocks (statement : Reader Tree) : Nat → Reader (List Tree)
  | 0 => fail .exhausted
  | n + 1 => do
    if ← check closeBrace then return []
    let first ← whenBlock statement
    return first :: (← whenBlocks statement n)

def switchStatement (statement : Reader Tree) : Reader Tree := do
  let start ← expectWord "switch"
  let _ ← expectWord "on"
  let subject ← expression
  let _ ← expect openBrace
  let whens ← bounded (whenBlocks statement)
  let _ ← expect closeBrace
  return { kind := .switchStatement, span := ← spanFrom start, children := subject :: whens }

/-! ## Loops -/

def forEachStatement (statement : Reader Tree) (start header : Token) (ty name : String) : Reader Tree := do
  let span ← spanFrom header
  let variableDeclaration : Tree := {
    kind := .variableDeclaration
    span
    props := [(.spelled .name, .text name), (.spelled .type, .text ty)] }
  let declaration : Tree := {
    kind := .variableDeclarationStatements
    span
    props := [(.spelled .type, .text ty)]
    children := [variableDeclaration] }
  let _ ← expect ":"
  let iterable ← expression
  let _ ← expect ")"
  let body ← bodyWith statement
  return { kind := .forEachStatement, span := ← spanFrom start, children := [declaration, iterable, body] }

/-- The first part of a loop head, if there is one. -/
def loopInit (header : Token) : Reader (Option Tree) := do
  if ← check ";" then return none
  match ← attempt (localHeader ["=", ";", ","]) with
  | some (ty, name) => return some (← variableDeclarations header ty name)
  | none => return some (← expressionPart)

def forLoopStatement (statement : Reader Tree) (start header : Token) : Reader Tree := do
  let init ← loopInit header
  let _ ← expect ";"
  let test ← if ← check ";" then pure none else some <$> condition
  let _ ← expect ";"
  let update ← if ← check ")" then pure none else some <$> expressionPart
  if ← check "," then unexpected .singleUpdate
  else
    let _ ← expect ")"
    let body ← bodyWith statement
    return {
      kind := .forLoopStatement
      span := ← spanFrom start
      props := [(.fact .hasInit, .flag init.isSome), (.fact .hasCondition, .flag test.isSome),
        (.fact .hasUpdate, .flag update.isSome)]
      children := init.toList ++ test.toList ++ update.toList ++ [body] }

def forStatement (statement : Reader Tree) : Reader Tree := do
  let start ← expectWord "for"
  let _ ← expect "("
  let header ← peek
  match ← attempt (localHeader [":"]) with
  | some (ty, name) => forEachStatement statement start header ty name
  | none => forLoopStatement statement start header

def whileStatement (statement : Reader Tree) : Reader Tree := do
  let start ← expectWord "while"
  let _ ← expect "("
  let test ← condition
  let _ ← expect ")"
  let body ← bodyWith statement
  return { kind := .whileLoopStatement, span := ← spanFrom start, children := [test, body] }

def doStatement (statement : Reader Tree) : Reader Tree := do
  let start ← expectWord "do"
  let body ← blockWith statement
  let _ ← expectWord "while"
  let _ ← expect "("
  let test ← condition
  let _ ← expect ")"
  let _ ← expect ";"
  return { kind := .doLoopStatement, span := ← spanFrom start, children := [body, test] }

/-! ## Handlers, exits and record operations -/

def catchBlocks (statement : Reader Tree) : Nat → Reader (List Tree)
  | 0 => fail .exhausted
  | n + 1 => do
    if ← checkWord "catch" then
      let start ← advance
      let _ ← expect "("
      let _ ← eatWord "final"
      let ty ← typeName
      let name ← identifier
      let _ ← expect ")"
      let body ← blockWith statement
      let block : Tree := {
        kind := .catchBlockStatement
        span := ← spanFrom start
        props := [(.spelled .type, .text ty), (.spelled .name, .text name)]
        children := [body] }
      return block :: (← catchBlocks statement n)
    else return []

def tryStatement (statement : Reader Tree) : Reader Tree := do
  let start ← expectWord "try"
  let body ← blockWith statement
  let catches ← bounded (catchBlocks statement)
  let hasFinally ← eatWord "finally"
  let final ← if hasFinally then pure [← blockWith statement] else pure []
  if catches.isEmpty && !hasFinally then unexpected .handler
  else
    return {
      kind := .tryCatchFinallyBlockStatement
      span := ← spanFrom start
      props := [(.fact .hasFinally, .flag hasFinally)]
      children := body :: catches ++ final }

def returnStatement : Reader Tree := do
  let start ← expectWord "return"
  let value ← if ← check ";" then pure [] else pure [← expression]
  let _ ← expect ";"
  return { kind := .returnStatement, span := ← spanFrom start, children := value }

def throwStatement : Reader Tree := do
  let start ← advance
  let value ← expression
  let _ ← expect ";"
  return { kind := .throwStatement, span := ← spanFrom start, children := [value] }

def jumpStatement : Reader Tree := do
  let start ← advance
  let _ ← expect ";"
  let kind := if start.isWord "break" then .breakStatement else .continueStatement
  return { kind, span := ← spanFrom start }

def recordWords : List (String × NodeKind) :=
  [("insert", .dmlInsertStatement), ("update", .dmlUpdateStatement), ("upsert", .dmlUpsertStatement),
   ("delete", .dmlDeleteStatement), ("undelete", .dmlUndeleteStatement), ("merge", .dmlMergeStatement)]

/-- The record operation that comes next: its word with a name or a query after it. -/
def recordOperation? : Reader (Option NodeKind) := do
  let token ← peek
  match (← ahead 1).kind with
  | .identifier _ | .query _ => return (recordWords.find? fun word => token.isWord word.1).map (·.2)
  | _ => return none

def recordStatement (kind : NodeKind) : Reader Tree := do
  let start ← advance
  let next ← ahead 1
  if (← checkWord "as") && (next.isWord "user" || next.isWord "system") then
    let _ ← advance
    let _ ← advance
  let operand ← expression
  let second ← if kind == .dmlMergeStatement then pure [← expression] else pure []
  let field ← if kind == .dmlUpsertStatement && !(← check ";") then pure [← typeName] else pure []
  let _ ← expect ";"
  return {
    kind
    span := ← spanFrom start
    props := field.map fun name => (.spelled .name, .text name)
    children := operand :: second }

/-! ## Statements -/

/-- A declaration of variables, or an expression, with its semicolon. -/
def simpleStatement : Reader Tree := do
  let start ← peek
  match ← attempt (localHeader ["=", ";", ","]) with
  | some (ty, name) =>
    let node ← variableDeclarations start ty name
    let _ ← expect ";"
    return node
  | none =>
    let expr ← expression
    let _ ← expect ";"
    return { kind := .expressionStatement, span := ← spanFrom start, children := [expr] }

/-- A statement whose nested statements are read by `statement`. -/
def statementWith (statement : Reader Tree) : Reader Tree := do
  let token ← peek
  let next ← ahead 1
  if token.isPunct openBrace then blockWith statement
  else if token.isWord "if" then ifStatement statement
  else if token.isWord "for" then forStatement statement
  else if token.isWord "while" then whileStatement statement
  else if token.isWord "do" then doStatement statement
  else if token.isWord "switch" && next.isWord "on" then switchStatement statement
  else if token.isWord "try" && next.isPunct openBrace then tryStatement statement
  else if token.isWord "return" then returnStatement
  else if token.isWord "throw" then throwStatement
  else if token.isWord "break" || token.isWord "continue" then jumpStatement
  else
    match ← recordOperation? with
    | some kind => recordStatement kind
    | none => simpleStatement

def statementWithin : Nat → Reader Tree
  | 0 => fail .exhausted
  | n + 1 => statementWith (statementWithin n)

def statement : Reader Tree := bounded statementWithin

def block : Reader Tree := blockWith statement

end ApexPaths.Source.Reader
