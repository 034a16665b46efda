import ApexPaths.Value.Basic

/-!
The heap of a walk. Objects are never moved or freed, so a reference stays valid. A collection lists the
elements that are known to be in it; when it is not complete there may be more.
-/

namespace ApexPaths
set_option autoImplicit false

/-- The known items of a collection, and whether they are all. -/
structure Contents (α : Type) where
  items : List α := []
  complete : Bool := true
  deriving Inhabited

namespace Contents

variable {α : Type}

def unknown : Contents α := { complete := false }

/-- The number of items, if they are all known. -/
def size? (contents : Contents α) : Option Nat := if contents.complete then some contents.items.length else none

/-- Whether there are no items, as far as that is known. -/
def isEmpty? (contents : Contents α) : Option Bool :=
  if !contents.items.isEmpty then some false else if contents.complete then some true else none

def incomplete (contents : Contents α) : Contents α := { contents with complete := false }

end Contents

inductive HeapObject where
  /-- An instance of a class or a record, with its fields by their names in lower case. -/
  | record (type : String) (fields : List (String × Value))
  | list (element : String) (contents : Contents Value)
  | set (element : String) (contents : Contents Value)
  | map (key value : String) (contents : Contents (Value × Value))
  deriving Inhabited

namespace HeapObject

def instanceOf (type : String) : HeapObject := .record (TypeName.canonical type) []

def typeName : HeapObject → String
  | .record type _ => type
  | .list element _ => "List<" ++ element ++ ">"
  | .set element _ => "Set<" ++ element ++ ">"
  | .map key value _ => "Map<" ++ key ++ "," ++ value ++ ">"

end HeapObject

/-- An association with one entry set: in its place if the key is there, else at the end. -/
def assign {α : Type} (key : String) (value : α) : List (String × α) → List (String × α)
  | [] => [(key, value)]
  | (k, v) :: rest => if k == key then (k, value) :: rest else (k, v) :: assign key value rest

structure Heap where
  objects : Array HeapObject := #[]
  deriving Inhabited

namespace Heap

section
variable (heap : Heap)

def size : Nat := heap.objects.size

def get? (ref : HeapRef) : Option HeapObject := heap.objects[ref]?

/-- Add an object; its reference is the former size. -/
def allocate (object : HeapObject) : HeapRef × Heap := (heap.size, { objects := heap.objects.push object })

def put (ref : HeapRef) (object : HeapObject) : Heap :=
  { objects := heap.objects.setIfInBounds ref object }

/-- A field of an instance, by its name in any case. -/
def field? (ref : HeapRef) (name : String) : Option Value :=
  match heap.get? ref with
  | some (.record _ fields) => (fields.find? (·.1 == Text.lower name)).map (·.2)
  | _ => none

/-- Set a field, if the reference is to an instance. -/
def setField? (ref : HeapRef) (name : String) (value : Value) : Option Heap :=
  match heap.get? ref with
  | some (.record type fields) => some (heap.put ref (.record type (assign (Text.lower name) value fields)))
  | _ => none

/-- Set a field; what is no instance stays. -/
def setField (ref : HeapRef) (name : String) (value : Value) : Heap :=
  (heap.setField? ref name value).getD heap

def newList (element : String) (contents : Contents Value) : Value × Heap :=
  let element := TypeName.canonical element
  let (ref, heap) := heap.allocate (.list element contents)
  (.ofRef (TypeName.listOf element) ref, heap)

def newSet (element : String) (contents : Contents Value) : Value × Heap :=
  let element := TypeName.canonical element
  let (ref, heap) := heap.allocate (.set element contents)
  (.ofRef (TypeName.setOf element) ref, heap)

def newMap (key value : String) (contents : Contents (Value × Value)) : Value × Heap :=
  let (ref, heap) := heap.allocate (.map key value contents)
  (.ofRef (TypeName.mapOf key value) ref, heap)

end

end Heap

end ApexPaths
