import ApexPaths.Library.Collections
import ApexPaths.Library.Schema
import ApexPaths.Library.Strings
import ApexPaths.Library.System

/-!
The model of the standard library: the first part that models a call answers it.
-/

namespace ApexPaths.Library
set_option autoImplicit false

/-- The parts of the library by their names, in the order in which they are asked. -/
def handlers : List (String × Handler) :=
  [("StringHandler", strings), ("CollectionHandler", collections), ("SchemaHandler", schema), ("SystemHandler", system)]

/-- The result of a call and the heap after it, if the call is modelled. -/
def invoke (call : LibraryCall) (heap : Heap) : Option (Value × Heap) :=
  handlers.findSome? fun (_, handler) => handler call heap

end ApexPaths.Library
