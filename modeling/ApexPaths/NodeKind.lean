import ApexPaths.Text.Case

/-!
Kinds of tree nodes, which are also the labels of graph vertices and the frame names of end-scope
marks.
-/

namespace ApexPaths

/-- The kind of a node or vertex. -/
inductive NodeKind where
  | userClass
  | userInterface
  | userEnum
  | userTrigger
  | method
  | parameter
  | fieldDeclarationStatements
  | fieldDeclaration
  | propertyDeclaration
  | blockStatement
  | ifElseBlockStatement
  | ifBlockStatement
  | standardCondition
  | forLoopStatement
  | forEachStatement
  | whileLoopStatement
  | doLoopStatement
  | switchStatement
  | valueWhenBlock
  | typeWhenBlock
  | elseWhenBlock
  | literalCase
  | identifierCase
  | tryCatchFinallyBlockStatement
  | catchBlockStatement
  | returnStatement
  | throwStatement
  | breakStatement
  | continueStatement
  | variableDeclarationStatements
  | variableDeclaration
  | expressionStatement
  | dmlInsertStatement
  | dmlUpdateStatement
  | dmlUpsertStatement
  | dmlDeleteStatement
  | dmlUndeleteStatement
  | dmlMergeStatement
  | literalExpression
  | variableExpression
  | referenceExpression
  | emptyReferenceExpression
  | thisVariableExpression
  | superVariableExpression
  | methodCallExpression
  | thisMethodCallExpression
  | superMethodCallExpression
  | newObjectExpression
  | newListLiteralExpression
  | newSetLiteralExpression
  | newMapLiteralExpression
  | mapEntryNode
  | binaryExpression
  | booleanExpression
  | prefixExpression
  | postfixExpression
  | assignmentExpression
  | ternaryExpression
  | castExpression
  | instanceOfExpression
  | arrayLoadExpression
  | soqlExpression
  | classRefExpression
  | staticBlock
  | propertyGetter
  | propertySetter
  deriving DecidableEq, Repr, Inhabited, BEq, Hashable

instance : LawfulBEq NodeKind where
  eq_of_beq {a b} h := by
    have hi : a.ctorIdx = b.ctorIdx := beq_iff_eq.mp h
    rw [← NodeKind.ofNat_ctorIdx a, hi, NodeKind.ofNat_ctorIdx]
  rfl {a} := beq_self_eq_true a.ctorIdx

namespace NodeKind

/-- Every kind, declarations first, then statements, expressions and the folded kinds. -/
def all : List NodeKind := [
  .userClass, .userInterface, .userEnum, .userTrigger, .method, .parameter, .fieldDeclarationStatements,
  .fieldDeclaration, .propertyDeclaration, .blockStatement, .ifElseBlockStatement, .ifBlockStatement,
  .standardCondition, .forLoopStatement, .forEachStatement, .whileLoopStatement, .doLoopStatement,
  .switchStatement, .valueWhenBlock, .typeWhenBlock, .elseWhenBlock, .literalCase, .identifierCase,
  .tryCatchFinallyBlockStatement, .catchBlockStatement, .returnStatement, .throwStatement,
  .breakStatement, .continueStatement, .variableDeclarationStatements, .variableDeclaration,
  .expressionStatement, .dmlInsertStatement, .dmlUpdateStatement, .dmlUpsertStatement,
  .dmlDeleteStatement, .dmlUndeleteStatement, .dmlMergeStatement, .literalExpression,
  .variableExpression, .referenceExpression, .emptyReferenceExpression, .thisVariableExpression,
  .superVariableExpression, .methodCallExpression, .thisMethodCallExpression,
  .superMethodCallExpression, .newObjectExpression, .newListLiteralExpression, .newSetLiteralExpression,
  .newMapLiteralExpression, .mapEntryNode, .binaryExpression, .booleanExpression, .prefixExpression,
  .postfixExpression, .assignmentExpression, .ternaryExpression, .castExpression, .instanceOfExpression,
  .arrayLoadExpression, .soqlExpression, .classRefExpression, .staticBlock, .propertyGetter,
  .propertySetter]

def name : NodeKind → String
  | .userClass => "UserClass"
  | .userInterface => "UserInterface"
  | .userEnum => "UserEnum"
  | .userTrigger => "UserTrigger"
  | .method => "Method"
  | .parameter => "Parameter"
  | .fieldDeclarationStatements => "FieldDeclarationStatements"
  | .fieldDeclaration => "FieldDeclaration"
  | .propertyDeclaration => "PropertyDeclaration"
  | .blockStatement => "BlockStatement"
  | .ifElseBlockStatement => "IfElseBlockStatement"
  | .ifBlockStatement => "IfBlockStatement"
  | .standardCondition => "StandardCondition"
  | .forLoopStatement => "ForLoopStatement"
  | .forEachStatement => "ForEachStatement"
  | .whileLoopStatement => "WhileLoopStatement"
  | .doLoopStatement => "DoLoopStatement"
  | .switchStatement => "SwitchStatement"
  | .valueWhenBlock => "ValueWhenBlock"
  | .typeWhenBlock => "TypeWhenBlock"
  | .elseWhenBlock => "ElseWhenBlock"
  | .literalCase => "LiteralCase"
  | .identifierCase => "IdentifierCase"
  | .tryCatchFinallyBlockStatement => "TryCatchFinallyBlockStatement"
  | .catchBlockStatement => "CatchBlockStatement"
  | .returnStatement => "ReturnStatement"
  | .throwStatement => "ThrowStatement"
  | .breakStatement => "BreakStatement"
  | .continueStatement => "ContinueStatement"
  | .variableDeclarationStatements => "VariableDeclarationStatements"
  | .variableDeclaration => "VariableDeclaration"
  | .expressionStatement => "ExpressionStatement"
  | .dmlInsertStatement => "DmlInsertStatement"
  | .dmlUpdateStatement => "DmlUpdateStatement"
  | .dmlUpsertStatement => "DmlUpsertStatement"
  | .dmlDeleteStatement => "DmlDeleteStatement"
  | .dmlUndeleteStatement => "DmlUndeleteStatement"
  | .dmlMergeStatement => "DmlMergeStatement"
  | .literalExpression => "LiteralExpression"
  | .variableExpression => "VariableExpression"
  | .referenceExpression => "ReferenceExpression"
  | .emptyReferenceExpression => "EmptyReferenceExpression"
  | .thisVariableExpression => "ThisVariableExpression"
  | .superVariableExpression => "SuperVariableExpression"
  | .methodCallExpression => "MethodCallExpression"
  | .thisMethodCallExpression => "ThisMethodCallExpression"
  | .superMethodCallExpression => "SuperMethodCallExpression"
  | .newObjectExpression => "NewObjectExpression"
  | .newListLiteralExpression => "NewListLiteralExpression"
  | .newSetLiteralExpression => "NewSetLiteralExpression"
  | .newMapLiteralExpression => "NewMapLiteralExpression"
  | .mapEntryNode => "MapEntryNode"
  | .binaryExpression => "BinaryExpression"
  | .booleanExpression => "BooleanExpression"
  | .prefixExpression => "PrefixExpression"
  | .postfixExpression => "PostfixExpression"
  | .assignmentExpression => "AssignmentExpression"
  | .ternaryExpression => "TernaryExpression"
  | .castExpression => "CastExpression"
  | .instanceOfExpression => "InstanceOfExpression"
  | .arrayLoadExpression => "ArrayLoadExpression"
  | .soqlExpression => "SoqlExpression"
  | .classRefExpression => "ClassRefExpression"
  | .staticBlock => "StaticBlock"
  | .propertyGetter => "PropertyGetter"
  | .propertySetter => "PropertySetter"

/-- The kind with the given label, up to ASCII case. -/
def ofName? (label : String) : Option NodeKind := all.find? fun kind => Text.eqIgnoringCase label kind.name

def isTypeDeclaration : NodeKind → Bool
  | .userClass | .userInterface | .userEnum | .userTrigger => true
  | _ => false

/-- Kinds that push a scope frame when a walk reaches them. -/
def opensScope : NodeKind → Bool
  | .blockStatement | .ifElseBlockStatement | .forLoopStatement | .forEachStatement
  | .whileLoopStatement | .doLoopStatement | .switchStatement | .valueWhenBlock
  | .typeWhenBlock | .elseWhenBlock | .tryCatchFinallyBlockStatement | .catchBlockStatement => true
  | _ => false

def isLoop : NodeKind → Bool
  | .forLoopStatement | .forEachStatement | .whileLoopStatement | .doLoopStatement => true
  | _ => false

def isWhenBlock : NodeKind → Bool
  | .valueWhenBlock | .typeWhenBlock | .elseWhenBlock => true
  | _ => false

def isDml : NodeKind → Bool
  | .dmlInsertStatement | .dmlUpdateStatement | .dmlUpsertStatement | .dmlDeleteStatement
  | .dmlUndeleteStatement | .dmlMergeStatement => true
  | _ => false

/-- Statements after which nothing in the same block can execute. -/
def isExit : NodeKind → Bool
  | .returnStatement | .throwStatement | .breakStatement | .continueStatement => true
  | _ => false

/-- Leaf statements that sit directly on a path. -/
def isSimple : NodeKind → Bool
  | .variableDeclarationStatements | .expressionStatement => true
  | kind => kind.isDml || kind.isExit

def isCompound : NodeKind → Bool
  | .ifElseBlockStatement | .forLoopStatement | .forEachStatement | .whileLoopStatement
  | .doLoopStatement | .switchStatement | .tryCatchFinallyBlockStatement => true
  | _ => false

/-- Expressions that transfer control to another method. -/
def isInvocable : NodeKind → Bool
  | .methodCallExpression | .thisMethodCallExpression | .superMethodCallExpression
  | .newObjectExpression => true
  | _ => false

def isExpression : NodeKind → Bool
  | .literalExpression | .variableExpression | .referenceExpression | .emptyReferenceExpression
  | .thisVariableExpression | .superVariableExpression | .methodCallExpression
  | .thisMethodCallExpression | .superMethodCallExpression | .newObjectExpression
  | .newListLiteralExpression | .newSetLiteralExpression | .newMapLiteralExpression
  | .binaryExpression | .booleanExpression | .prefixExpression | .postfixExpression
  | .assignmentExpression | .ternaryExpression | .castExpression | .instanceOfExpression
  | .arrayLoadExpression | .soqlExpression | .classRefExpression => true
  | _ => false

end NodeKind

end ApexPaths
