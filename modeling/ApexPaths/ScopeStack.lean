import ApexPaths.Text.Split

/-!
The names of the types that enclose a place in the source, outermost first.
-/

namespace ApexPaths

structure ScopeStack where
  names : List String := []
  deriving DecidableEq, Repr, Inhabited

namespace ScopeStack

section
variable (stack : ScopeStack)

def push (name : String) : ScopeStack := ⟨stack.names ++ [name]⟩

/-- The innermost name and the stack around it. -/
def pop : Option String × ScopeStack := (stack.names.getLast?, ⟨stack.names.dropLast⟩)

/-- The names joined by dots: the defining type of the innermost scope. -/
def qualified : String := Text.joinStrings "." stack.names

def isEmpty : Bool := stack.names.isEmpty

end

/-- Run a function with one more name on the stack. -/
def within {α : Type} (stack : ScopeStack) (name : String) (f : ScopeStack → α) : α := f (stack.push name)

end ScopeStack

end ApexPaths
