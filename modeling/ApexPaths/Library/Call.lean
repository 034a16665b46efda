import ApexPaths.Memory.Heap

/-!
Calls of methods of the standard library. A handler gives the result of a call and the heap after it; a
call that it does not model has none. What is modelled but cannot be computed is unknown, of the
method's return type.
-/

namespace ApexPaths
set_option autoImplicit false

/-- What a method is called on. -/
inductive CallTarget where
  | value (value : Value)
  | type (name : String)

/-- A call with the method's name in lower case. -/
structure LibraryCall where
  target : CallTarget
  method : String
  args : List Value

namespace LibraryCall

def make (target : CallTarget) (method : String) (args : List Value) : LibraryCall := ⟨target, Text.lower method, args⟩

section
variable (call : LibraryCall)

def arg? (index : Nat) : Option Value := call.args[index]?

def textArg? (index : Nat) : Option String := (call.arg? index).bind Value.text?

def intArg? (index : Nat) : Option Int := (call.arg? index).bind Value.int?

/-- An argument that counts something: an integer that is not negative. -/
def indexArg? (index : Nat) : Option Nat :=
  (call.intArg? index).bind fun n => if 0 ≤ n then some n.toNat else none

/-- A static call on a type, which may be written with `System.` before it. -/
def isStaticOn (type : String) : Bool :=
  match call.target with
  | .value _ => false
  | .type name =>
    Text.eqIgnoringCase name type ||
      (Text.dropStart? "System.".toList name.toList).any fun rest => Text.eqIgnoringCase (String.ofList rest) type

end

end LibraryCall

abbrev Handler := LibraryCall → Heap → Option (Value × Heap)

end ApexPaths
