import ApexPaths.Reserved
import ApexPaths.Source.Tree

/-!
Implicit constructs made explicit in the tree before it enters the graph: missing `else` blocks, skip
blocks of loops that may not run, methods for static blocks and accessors, and the method around a
trigger's body.
-/

namespace ApexPaths.Build
set_option autoImplicit false

open Source

/-- An empty block that stands for nothing in the source. -/
def implicitBlock (span : Span) : Tree := { kind := .blockStatement, span, props := [(.fact .isImplicit, .flag true)] }

/-! ## Statements -/

def isLiteralTrue (condition : Tree) : Bool :=
  match condition.children with
  | e :: _ => e.kind == .literalExpression && e.text? (.fact .literalType) == some Reserved.literalTrue
  | [] => false

/-- The blocks that a statement lacks, given its children. -/
def missingBlocks (kind : NodeKind) (span : Span) (children : List Tree) : List Tree :=
  match kind with
  | .ifElseBlockStatement =>
    if children.getLast?.any (·.kind == .blockStatement) then [] else [implicitBlock span]
  | .whileLoopStatement | .forLoopStatement =>
    match children.find? (·.kind == .standardCondition) with
    | some condition => if isLiteralTrue condition then [] else [implicitBlock span]
    | none => []
  | .forEachStatement => [implicitBlock span]
  | _ => []

mutual

/-- The tree with missing blocks added throughout. -/
def completeStatements : Tree → Tree
  | ⟨kind, span, props, children⟩ =>
    let children := completeAll children
    ⟨kind, span, props, children ++ missingBlocks kind span children⟩

def completeAll : List Tree → List Tree
  | [] => []
  | tree :: rest => completeStatements tree :: completeAll rest

end

/-! ## Methods -/

def syntheticMethod (name returnType : String) (span : Span) (syntheticKind : String) (props : PropertyMap)
    (children : List Tree) : Tree where
  kind := .method
  span
  props := props.foldl (fun all entry => all.put entry.1 entry.2)
    [(.spelled .name, .text name), (.spelled .returnType, .text returnType), (.fact .arity, .int 0),
     (.fact .isConstructor, .flag false), (.fact .isAbstract, .flag false), (.fact .isSynthetic, .flag true),
     (.fact .syntheticKind, .text syntheticKind)]
  children

def staticBlockMethod (ordinal : Nat) (block : Tree) : Tree :=
  syntheticMethod (Reserved.staticBlock ordinal) "void" block.span Reserved.kindStaticBlock
    [(.fact .isStatic, .flag true)] [block.children.getLast?.getD (implicitBlock block.span)]

/-- A statement that calls the method of a static block. -/
def staticBlockCall (ordinal : Nat) (span : Span) : Tree :=
  let name := Reserved.staticBlock ordinal
  let receiver : Tree := { kind := .emptyReferenceExpression, span }
  let call : Tree := {
    kind := .methodCallExpression
    span
    props := [(.spelled .methodName, .text name), (.spelled .fullMethodName, .text name)]
    children := [receiver] }
  { kind := .expressionStatement, span, children := [call] }

/-- The method that calls the static blocks with the given spans in order. -/
def staticBlockInvoker (span : Span) (blocks : List Span) : Tree :=
  let calls := blocks.mapIdx fun i blockSpan => staticBlockCall (i + 1) blockSpan
  let body : Tree := { kind := .blockStatement, span, children := calls }
  syntheticMethod Reserved.staticBlockInvoker "void" span Reserved.kindStaticBlockInvoker
    [(.fact .isStatic, .flag true)] [body]

/-- The method of an accessor of a property. -/
def accessorMethod? (property accessor : Tree) : Option Tree :=
  let name := (property.text? (.spelled .name)).getD ""
  let ty := (property.text? (.spelled .type)).getD "Object"
  let span := accessor.span
  let body := completeStatements (accessor.children.getLast?.getD (implicitBlock span))
  let shared : PropertyMap :=
    [(.fact .isStatic, .flag (property.flag (.fact .isStatic))), (.fact .propertyName, .text name),
     (.fact .isImplicit, .flag accessor.children.isEmpty)]
  match accessor.kind with
  | .propertyGetter => some (syntheticMethod (Reserved.getter name) ty span Reserved.kindGetter shared [body])
  | .propertySetter =>
    let parameter : Tree := {
      kind := .parameter
      span
      props := [(.spelled .name, .text Reserved.setterParameter), (.spelled .type, .text ty)] }
    some (syntheticMethod (Reserved.setter name) "void" span Reserved.kindSetter ((.fact .arity, .int 1) :: shared)
      [parameter, body])
  | _ => none

/-! ## Types and triggers -/

mutual

/-- A type with its members completed and the invoker of its static blocks at the end. -/
def completeType : Tree → Tree
  | ⟨kind, span, props, children⟩ =>
    let blocks := (children.filter (·.kind == .staticBlock)).map (·.span)
    ⟨kind, span, props, completeMembers 1 children ++ if blocks.isEmpty then [] else [staticBlockInvoker span blocks]⟩

/-- The members of a type: static blocks become methods, accessors leave their property and follow it as
methods, nested types are completed. `ordinal` is the number of the next static block. -/
def completeMembers (ordinal : Nat) : List Tree → List Tree
  | [] => []
  | member :: rest =>
    match member.kind with
    | .staticBlock => staticBlockMethod ordinal member :: completeMembers (ordinal + 1) rest
    | .propertyDeclaration =>
      { member with children := [] } :: member.children.filterMap (accessorMethod? member) ++
      completeMembers ordinal rest
    | kind =>
      (if kind.isTypeDeclaration then completeType member else completeStatements member) ::
      completeMembers ordinal rest

end

def words (cs : List Char) : List (List Char) :=
  (Text.splitOn ' ' (cs.map fun c => if Text.isBlank c then ' ' else c)).filter (!·.isEmpty)

/-- Trigger events in capitals with single blanks, each once. -/
def normalizeUsages (usages : List String) : List String :=
  let normalize (usage : String) : String :=
    Text.joinStrings " " ((words usage.toList).map fun word => Text.upper (String.ofList word))
  (usages.map normalize).foldl (fun kept usage => if usage.isEmpty || kept.contains usage then kept
  else kept ++ [usage]) []

/-- A trigger with its body in a method. -/
def completeTrigger (trigger : Tree) : Tree :=
  let body := completeStatements (trigger.children.getLast?.getD (implicitBlock trigger.span))
  let invoke := syntheticMethod Reserved.triggerInvoke "void" trigger.span Reserved.kindTriggerInvoke
    [(.fact .isStatic, .flag false)] [body]
  { trigger.put (.fact .usages) (.texts (normalizeUsages (trigger.texts (.fact .usages)))) with children := [invoke] }

/-- The root of a compilation unit with its implicit constructs. -/
def complete (root : Tree) : Tree :=
  if root.kind == .userTrigger then completeTrigger root
  else if root.kind.isTypeDeclaration then completeType root
  else root

end ApexPaths.Build
