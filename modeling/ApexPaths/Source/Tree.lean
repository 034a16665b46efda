import ApexPaths.NodeKind
import ApexPaths.Property
import ApexPaths.Span

/-!
Source trees: each node has a kind, a span, properties and children in source order.
-/

namespace ApexPaths.Source
set_option autoImplicit false

structure Tree where
  kind : NodeKind
  span : Span
  props : PropertyMap := []
  children : List Tree := []
  deriving Inhabited

namespace Tree

mutual

def size : Tree → Nat
  | ⟨_, _, _, children⟩ => sizes children + 1

def sizes : List Tree → Nat
  | [] => 0
  | tree :: rest => tree.size + sizes rest

end

def text? (tree : Tree) (key : Key) : Option String := tree.props.text? key

def flag (tree : Tree) (key : Key) : Bool := (tree.props.flag? key).getD false

def texts (tree : Tree) (key : Key) : List String := (tree.props.texts? key).getD []

def put (tree : Tree) (key : Key) (value : PropertyValue) : Tree := { tree with props := tree.props.put key value }

def childrenOfKind (tree : Tree) (kind : NodeKind) : List Tree := tree.children.filter (·.kind == kind)

/-- An event of a depth-first visit. -/
inductive Event where
  | enter (kind : NodeKind)
  | exit (kind : NodeKind)
  deriving DecidableEq, Repr

mutual

/-- The events of a depth-first visit that does not go below nodes where `descend` is false. -/
def visit (descend : Tree → Bool) : Tree → List Event
  | ⟨kind, span, props, children⟩ =>
    .enter kind :: (if descend ⟨kind, span, props, children⟩ then visits descend children else []) ++ [.exit kind]

def visits (descend : Tree → Bool) : List Tree → List Event
  | [] => []
  | tree :: rest => tree.visit descend ++ visits descend rest

end

end Tree

/-- A named source as a tree. -/
structure CompilationUnit where
  name : String
  root : Tree
  deriving Inhabited

end ApexPaths.Source
