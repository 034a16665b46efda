import ApexPaths.Source.Statement

/-!
Reading compilation units: one class, interface, enum or trigger, with its members.
-/

set_option autoImplicit false

namespace ApexPaths.Source.Reader

/-! ## Modifiers -/

def modifierWords : List String :=
  ["public", "private", "protected", "global", "static", "final", "abstract", "virtual", "override", "transient",
   "testmethod", "webservice"]

def sharingWords : List String := ["with", "without", "inherited"]

/-- The properties that modifiers give to a declaration. -/
def modifierProps (words : List String) : PropertyMap :=
  [(.fact .modifiers, .texts words), (.fact .isStatic, .flag (words.contains "static"))]

/-- Everything up to the closing mark of a pair that is already open. -/
def skipBalanced («open» close : String) (depth : Nat) : Nat → Reader Unit
  | 0 => fail .exhausted
  | n + 1 => do
    if ← atEnd then unexpected (.mark close)
    else
      let token ← advance
      if token.isPunct «open» then skipBalanced «open» close (depth + 1) n
      else if token.isPunct close then
        match depth with
        | 0 => return ()
        | depth + 1 => skipBalanced «open» close depth n
      else skipBalanced «open» close depth n

/-- The modifier words before a declaration; annotations and sharing words are skipped. -/
def modifiersWithin : Nat → Reader (List String)
  | 0 => fail .exhausted
  | n + 1 => do
    let token ← peek
    match token.kind with
    | .decorator _ =>
      let _ ← advance
      if ← eat "(" then bounded (skipBalanced "(" ")" 0)
      modifiersWithin n
    | _ =>
      match modifierWords.find? token.isWord with
      | some word =>
        let _ ← advance
        return word :: (← modifiersWithin n)
      | none =>
        if sharingWords.any token.isWord && (← ahead 1).isWord "sharing" then
          let _ ← advance
          let _ ← advance
          modifiersWithin n
        else return []

def modifiers : Reader (List String) := bounded modifiersWithin

/-! ## Members -/

def parameter : Reader Tree := do
  let start ← peek
  let _ ← eatWord "final"
  let ty ← typeName
  let name ← identifier
  return {
    kind := .parameter
    span := ← spanFrom start
    props := [(.spelled .name, .text name), (.spelled .type, .text ty)] }

/-- A block, or a semicolon in its place. -/
def optionalBlock : Reader (List Tree) := do
  if ← check openBrace then return [← block]
  let _ ← expect ";"
  return []

def methodRest (start : Token) (words : List String) (name returnType : String) (isConstructor : Bool) :
    Reader Tree := do
  let _ ← expect "("
  let params ← bounded (itemsUntil ")" parameter)
  let _ ← expect ")"
  let body ← optionalBlock
  return {
    kind := .method
    span := ← spanFrom start
    props := [(.spelled .name, .text name), (.spelled .returnType, .text returnType),
      (.fact .arity, .int params.length), (.fact .isConstructor, .flag isConstructor),
      (.fact .isAbstract, .flag body.isEmpty)] ++ modifierProps words
    children := params ++ body }

def accessorKind : Reader NodeKind := do
  if ← eatWord "get" then return .propertyGetter
  else if ← eatWord "set" then return .propertySetter
  else unexpected .accessor

/-- The accessors of a property up to the closing brace, which is left. -/
def accessors : Nat → Reader (List Tree)
  | 0 => fail .exhausted
  | n + 1 => do
    if ← check closeBrace then return []
    let start ← peek
    let _ ← modifiers
    let kind ← accessorKind
    let body ← optionalBlock
    let accessor : Tree := { kind, span := ← spanFrom start, children := body }
    return accessor :: (← accessors n)

def propertyRest (start : Token) (words : List String) (name ty : String) : Reader Tree := do
  let _ ← expect openBrace
  let children ← bounded accessors
  let _ ← expect closeBrace
  return {
    kind := .propertyDeclaration
    span := ← spanFrom start
    props := [(.spelled .name, .text name), (.spelled .type, .text ty)] ++ modifierProps words ++
      [(.fact .hasGetter, .flag (children.any (·.kind == .propertyGetter))),
       (.fact .hasSetter, .flag (children.any (·.kind == .propertySetter)))]
    children }

def fieldRest (start : Token) (words : List String) (name ty : String) : Reader Tree := do
  let children ← bounded (declarators .fieldDeclaration ty start name)
  let _ ← expect ";"
  return {
    kind := .fieldDeclarationStatements
    span := ← spanFrom start
    props := (.spelled .type, .text ty) :: modifierProps words
    children }

def plainMember (className : String) (start : Token) (words : List String) : Reader Tree := do
  let token ← peek
  if token.isPunct openBrace then
    if words.contains "static" then
      let body ← block
      return { kind := .staticBlock, span := ← spanFrom start, children := [body] }
    else unexpected .staticBlock
  else if (token.identifier?.any (Text.eqIgnoringCase · className)) && (← ahead 1).isPunct "(" then
    let _ ← advance
    methodRest start words Reserved.constructorName "void" true
  else
    let ty ← typeName
    let name ← identifier
    if ← check "(" then methodRest start words name ty false
    else if ← check openBrace then propertyRest start words name ty
    else fieldRest start words name ty

/-- A member whose nested type declarations are read by `nested`. -/
def memberWith (nested : Token → List String → Reader Tree) (className : String) : Reader Tree := do
  let start ← peek
  let words ← modifiers
  let token ← peek
  let declaresType := ["class", "interface", "enum"].any token.isWord && (← ahead 1).identifier?.isSome
  if declaresType then nested start words else plainMember className start words

/-! ## Types -/

def classRest (nested : Token → List String → Reader Tree) (start : Token) (words : List String) : Reader Tree := do
  let name ← identifier
  let superclass ← if ← eatWord "extends" then pure [← typeName] else pure []
  let interfaces ← if ← eatWord "implements" then bounded (commaSeparated typeName) else pure []
  let _ ← expect openBrace
  let children ← bounded (itemsInBraces (memberWith nested name))
  return {
    kind := .userClass
    span := ← spanFrom start
    props := (.spelled .name, .text name) :: modifierProps words ++
      [(.fact .isAbstract, .flag (words.contains "abstract"))] ++
      superclass.map (fun ty => (.spelled .superClassName, .text ty)) ++
      [(.spelled .interfaceNames, .texts interfaces)]
    children }

/-- A member of an interface, which must be a method. -/
def interfaceMember (nested : Token → List String → Reader Tree) (name : String) : Reader Tree := do
  let member ← memberWith nested name
  if member.kind == .method then return member
  else fun _ => .error ⟨member.span.startLine, member.span.startColumn, .interfaceMember⟩

def interfaceRest (nested : Token → List String → Reader Tree) (start : Token) (words : List String) : Reader Tree := do
  let name ← identifier
  let extended ← if ← eatWord "extends" then bounded (commaSeparated typeName) else pure []
  let _ ← expect openBrace
  let children ← bounded (itemsInBraces (interfaceMember nested name))
  return {
    kind := .userInterface
    span := ← spanFrom start
    props := (.spelled .name, .text name) :: modifierProps words ++ [(.spelled .interfaceNames, .texts extended)]
    children }

def enumRest (start : Token) (words : List String) : Reader Tree := do
  let name ← identifier
  let _ ← expect openBrace
  let values ← bounded (itemsUntil closeBrace identifier)
  let _ ← expect closeBrace
  return {
    kind := .userEnum
    span := ← spanFrom start
    props := [(.spelled .name, .text name), (.fact .values, .texts values)] ++ modifierProps words }

/-- A type declaration after its modifiers. -/
def typeDeclarationWithin : Nat → Token → List String → Reader Tree
  | 0, _, _ => fail .exhausted
  | n + 1, start, words => do
    if ← eatWord "class" then classRest (typeDeclarationWithin n) start words
    else if ← eatWord "interface" then interfaceRest (typeDeclarationWithin n) start words
    else if ← eatWord "enum" then enumRest start words
    else unexpected .typeDeclaration

/-- One event of a trigger, as two words. -/
def usage : Reader String := do
  let timing ← identifier
  let operation ← identifier
  return timing ++ " " ++ operation

def trigger (start : Token) : Reader Tree := do
  let _ ← expectWord "trigger"
  let name ← identifier
  let _ ← expectWord "on"
  let target ← typeName
  let _ ← expect "("
  let usages ← bounded (commaSeparated usage)
  let _ ← expect ")"
  let body ← block
  return {
    kind := .userTrigger
    span := ← spanFrom start
    props := [(.spelled .name, .text name), (.spelled .targetName, .text target), (.fact .usages, .texts usages)]
    children := [body] }

/-- One declaration and nothing after it. -/
def compilationUnit : Reader Tree := do
  let start ← peek
  let words ← modifiers
  let root ←
    if ← checkWord "trigger" then trigger start
    else bounded fun n => typeDeclarationWithin n start words
  if ← atEnd then return root else unexpected .endOfUnit

end ApexPaths.Source.Reader

namespace ApexPaths.Source

/-- The tree of some tokens before an end mark. -/
def parseTokens (tokens : List Token) (stop : Token) : Except Fault Tree := do
  let (tree, _) ← Reader.compilationUnit { rest := tokens, stop }
  return tree

def parseTree (text : String) : Except Fault Tree := do
  let (tokens, stop) ← scan text
  parseTokens tokens stop

/-- The compilation unit of a named source. -/
def parse (unit text : String) : Except ParseError CompilationUnit :=
  match parseTree text with
  | .ok root => .ok ⟨unit, root⟩
  | .error fault => .error ⟨unit, fault⟩

/-- The compilation units of named sources, up to the first that is refused. -/
def parseAll (sources : List (String × String)) : Except ParseError (List CompilationUnit) :=
  sources.mapM fun (unit, text) => parse unit text

end ApexPaths.Source
