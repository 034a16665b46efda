import ApexPaths.Library.Call

/-!
Methods of lists, sets and maps. Elements are the same when their literals are equal with case or when
they are one object; otherwise that is undecided. A change that cannot be applied exactly leaves the
collection incomplete.
-/

namespace ApexPaths.Library
set_option autoImplicit false

/-! ## Elements -/

/-- Two elements are the same, as far as that is known. -/
def sameElement? (a b : Value) : Option Bool :=
  match a.content, b.content with
  | .literal x, .literal y => some (x.same y)
  | .reference x, .reference y => if x = y then some true else none
  | _, _ => none

/-- Where an element is in a collection. -/
inductive Place where
  | here (index : Nat)
  | absent
  | undecided
  deriving DecidableEq, Repr

/-- The place of an element: of the first item that is surely the same; absent only if no item may be. -/
def place (needle : Value) (complete : Bool) (items : List Value) : Place :=
  match items.findIdx? fun item => sameElement? item needle == some true with
  | some index => .here index
  | none => if complete && items.all fun item => sameElement? item needle == some false then .absent else .undecided

/-- The answer to a question for an element. -/
def Place.isPresent? : Place → Option Bool
  | .here _ => some true
  | .absent => some false
  | .undecided => none

/-- The answers about the number of items. -/
def sizeAnswer? {α : Type} (contents : Contents α) (method : String) : Option Value :=
  match method with
  | "size" => contents.size?.map fun n => .ofInt n
  | "isempty" => contents.isEmpty?.map .ofBool
  | _ => none

/-- The items of a list or a set that is given as a value. -/
def itemsOf? (heap : Heap) (value : Value) : Option (Contents Value) :=
  match value.ref?.bind heap.get? with
  | some (.list _ contents) | some (.set _ contents) => some contents
  | _ => none

/-! ## Lists -/

/-- A changed list and the answer of the method; without an answer it is unknown. -/
abbrev Outcome (α : Type) := Option Value × Contents α

/-- Insert an item at a position, where that is known. -/
def insertAt (contents : Contents Value) (index : Option Nat) (value : Value) : Contents Value :=
  match index with
  | some i =>
    if contents.complete && i ≤ contents.items.length then
      { contents with items := contents.items.take i ++ value :: contents.items.drop i }
    else { items := contents.items ++ [value], complete := false }
  | none => { items := contents.items ++ [value], complete := false }

/-- A method of a list that only concerns its own contents. -/
def listMethod (call : LibraryCall) (incoming : Option (Contents Value)) (contents : Contents Value) : Outcome Value :=
  let unchanged (answer : Option Value) : Outcome Value := (answer, contents)
  let inside (i : Nat) : Bool := contents.complete && i < contents.items.length
  match call.method with
  | "add" =>
    if call.args.length = 1 then
      match call.arg? 0 with
      | some value => (some .void, { contents with items := contents.items ++ [value] })
      | none => unchanged none
    else
      match call.arg? 1 with
      | some value => (some .void, insertAt contents (call.indexArg? 0) value)
      | none => unchanged none
  | "addall" =>
    match incoming with
    | some other => (some .void, ⟨contents.items ++ other.items, contents.complete && other.complete⟩)
    | none => (some .void, contents.incomplete)
  | "get" => unchanged ((call.indexArg? 0).bind fun i => if contents.complete then contents.items[i]? else none)
  | "set" =>
    match call.indexArg? 0 with
    | some i =>
      if inside i then
        match call.arg? 1 with
        | some value => (some .void, { contents with items := contents.items.set i value })
        | none => unchanged none
      else (some .void, contents.incomplete)
    | none => (some .void, contents.incomplete)
  | "remove" =>
    match call.indexArg? 0 with
    | some i =>
      if inside i then (contents.items[i]?, { contents with items := contents.items.eraseIdx i })
        else (none, contents.incomplete)
    | none => (none, contents.incomplete)
  | "contains" =>
    unchanged ((call.arg? 0).bind fun value => (place value contents.complete contents.items).isPresent?.map .ofBool)
  | "clear" => (some .void, {})
  | method => unchanged (sizeAnswer? contents method)

theorem listMethod_clear {call : LibraryCall} (hmethod : call.method = "clear") (incoming : Option (Contents Value))
    (contents : Contents Value) : listMethod call incoming contents = (some .void, {}) := by
  simp only [listMethod, hmethod]

/-! ## Sets -/

/-- Put an item into a set: whether it is new, as far as that is known. -/
def insertItem (contents : Contents Value) (value : Value) : Option Bool × Contents Value :=
  match place value true contents.items with
  | .here _ => (some false, contents)
  | .absent => (some true, { contents with items := contents.items ++ [value] })
  | .undecided => (none, ⟨contents.items ++ [value], false⟩)

def setMethod (call : LibraryCall) (incoming : Option (Contents Value)) (contents : Contents Value) : Outcome Value :=
  let unchanged (answer : Option Value) : Outcome Value := (answer, contents)
  let find (value : Value) : Place := place value contents.complete contents.items
  match call.method with
  | "add" =>
    match call.arg? 0 with
    | some value =>
      let (isNew, contents) := insertItem contents value
      (isNew.map .ofBool, contents)
    | none => unchanged none
  | "addall" =>
    match incoming with
    | some other =>
      let joined := other.items.foldl (fun contents item => (insertItem contents item).2) contents
      (none, { joined with complete := joined.complete && other.complete })
    | none => (none, contents.incomplete)
  | "remove" =>
    match call.arg? 0 with
    | some value =>
      match find value with
      | .here i => (some (.ofBool true), { contents with items := contents.items.eraseIdx i })
      | .absent => unchanged (some (.ofBool false))
      | .undecided => (none, contents.incomplete)
    | none => unchanged none
  | "contains" => unchanged ((call.arg? 0).bind fun value => (find value).isPresent?.map .ofBool)
  | "clear" => (some .void, {})
  | method => unchanged (sizeAnswer? contents method)

/-! ## Maps -/

def mapMethod (call : LibraryCall) (valueType : String) (contents : Contents (Value × Value)) :
    Outcome (Value × Value) :=
  let unchanged (answer : Option Value) : Outcome (Value × Value) := (answer, contents)
  let keys := contents.items.map (·.1)
  let find (key : Value) : Place := place key contents.complete keys
  let valueAt (i : Nat) : Option Value := contents.items[i]?.map (·.2)
  match call.method with
  | "put" =>
    match call.arg? 0, call.arg? 1 with
    | some key, some value =>
      match place key true keys with
      | .here i => (valueAt i, { contents with items := contents.items.modify i fun entry => (entry.1, value) })
      | .absent => (some (.nullOf valueType), { contents with items := contents.items ++ [(key, value)] })
      | .undecided => (none, ⟨contents.items ++ [(key, value)], false⟩)
    | _, _ => unchanged none
  | "get" =>
    unchanged ((call.arg? 0).bind fun key =>
      match find key with
      | .here i => valueAt i
      | .absent => some (.nullOf valueType)
      | .undecided => none)
  | "containskey" => unchanged ((call.arg? 0).bind fun key => (find key).isPresent?.map .ofBool)
  | "remove" =>
    match call.arg? 0 with
    | some key =>
      match find key with
      | .here i => (valueAt i, { contents with items := contents.items.eraseIdx i })
      | .absent => unchanged (some (.nullOf valueType))
      | .undecided => (none, contents.incomplete)
    | none => unchanged none
  | "clear" => (some .void, {})
  | method => unchanged (sizeAnswer? contents method)

/-! ## Dispatch -/

/-- The unknown answer of a method by its return type. -/
def collectionFallback? (type element key : String) (method : String) : Option Value :=
  let base := TypeName.base type
  let among (methods : List String) : Bool := methods.contains method
  if method = "size" then some (.unknown "Integer")
  else if among ["isempty", "contains", "containskey", "equals"] then some (.unknown "Boolean")
  else if base = "Set" ∧ among ["add", "addall", "remove", "removeall", "retainall"] then some (.unknown "Boolean")
  else if base = "Map" ∧ among ["get", "put", "remove"] then some (.unknown element)
  else if base = "List" ∧ among ["get", "remove"] then some (.unknown element)
  else if base = "Map" ∧ method = "keyset" then some (.unknown (TypeName.setOf key))
  else if base = "Map" ∧ method = "values" then some (.unknown (TypeName.listOf element))
  else if among ["add", "addall", "clear", "putall", "sort", "set"] then some .void
  else if among ["clone", "deepclone"] then some (.unknown type)
  else none

theorem exists_of_collectionFallback? {type element key method : String} {fallback : Value}
    (h : collectionFallback? type element key method = some fallback) : ∃ answer, fallback = .unknown answer := by
  have hcase {c : Prop} [Decidable c] {answer : String} {rest : Option Value}
      (hrest : rest = some fallback → ∃ other, fallback = .unknown other) :
      (if c then some (.unknown answer) else rest) = some fallback → ∃ other, fallback = .unknown other := by
    split
    · exact fun heq => ⟨answer, (Option.some.inj heq).symm⟩
    · exact hrest
  revert h
  dsimp only [collectionFallback?]
  iterate 9 refine hcase ?_
  exact nofun

/-- A method of the collection at a reference: its answer, if it is known, and the heap after it. -/
def collectionMethod (call : LibraryCall) (ref : HeapRef) (element key : String) (heap : Heap) : Option Value × Heap :=
  let incoming := (call.arg? 0).bind (itemsOf? heap)
  let made (result : Value × Heap) : Option Value × Heap := (some result.1, result.2)
  match heap.get? ref with
  | some (.list type contents) =>
    if call.method = "clone" then made (heap.newList element contents)
    else
      let (answer, contents) := listMethod call incoming contents
      (answer, heap.put ref (.list type contents))
  | some (.set type contents) =>
    if call.method = "clone" then made (heap.newSet element contents)
    else
      let (answer, contents) := setMethod call incoming contents
      (answer, heap.put ref (.set type contents))
  | some (.map keyType type contents) =>
    if call.method = "keyset" then made (heap.newSet key ⟨contents.items.map (·.1), contents.complete⟩)
    else if call.method = "values" then made (heap.newList element ⟨contents.items.map (·.2), contents.complete⟩)
    else
      let (answer, contents) := mapMethod call element contents
      (answer, heap.put ref (.map keyType type contents))
  | _ => (none, heap)

def collections : Handler := fun call heap =>
  match call.target with
  | .type _ => none
  | .value receiver =>
    if !TypeName.isCollection receiver.type then none
    else do
      let element := (TypeName.element? receiver.type).getD "Object"
      let key := (TypeName.key? receiver.type).getD "Object"
      let fallback ← collectionFallback? receiver.type element key call.method
      match receiver.ref? with
      | none => return (fallback, heap)
      | some ref =>
        let (answer, heap) := collectionMethod call ref element key heap
        return (answer.getD fallback, heap)

end ApexPaths.Library
