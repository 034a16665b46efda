import ApexPaths.Library.Call

/-!
Descriptions of objects and fields. A chain of calls from the global description down to a field, and the
static forms of it, give tokens that remember which object and field they are about.
-/

namespace ApexPaths.Library
set_option autoImplicit false

/-- Names that are never the name of an object. -/
def systemNames : List String :=
  ["apexpages", "database", "json", "label", "limits", "math", "schema", "search", "site", "system", "test", "trigger",
   "userinfo", "string", "integer", "long", "decimal", "double", "boolean", "date", "datetime", "id", "blob",
   "url", "crypto",
   "encodingutil", "messaging"]

/-- The unknown answer of a description's method by its return type. -/
def schemaFallback (method receiverType : String) : Value :=
  match method with
  | "getdescribe" =>
    if receiverType.endsWith "SObjectField" then .unknown "Schema.DescribeFieldResult"
    else .unknown "Schema.DescribeSObjectResult"
  | "getname" | "getlabel" | "getlocalname" => .unknown "String"
  | "getsobjecttype" => .unknown "Schema.SObjectType"
  | "getsobjectfield" => .unknown "Schema.SObjectField"
  | "newsobject" => .unknown "SObject"
  | "containskey" => .unknown "Boolean"
  | "keyset" => .unknown "Set<String>"
  | method => if method.startsWith "is" then .unknown "Boolean" else .unknown "Object"

/-- A method of a token, where it leads on. -/
def tokenMethod? (token : SchemaToken) (call : LibraryCall) (heap : Heap) : Option (Value × Heap) :=
  let pure (value : Value) : Option (Value × Heap) := some (value, heap)
  match token.kind, call.method with
  | .globalDescribe, "get" => pure (.ofToken { kind := .objectType, object := call.textArg? 0 })
  | .objectType, "getdescribe" => pure (.ofToken (token.step .objectDescribe))
  | .objectType, "newsobject" => token.object.map fun object =>
    let (ref, heap) := heap.allocate (.instanceOf object)
    (.ofRef object ref, heap)
  | .objectDescribe, "getname" | .objectDescribe, "getlocalname" => token.object.bind fun name => pure (.ofText name)
  | .objectDescribe, "getsobjecttype" => pure (.ofToken (token.step .objectType))
  | .fieldMap, "getmap" => pure (.ofToken token)
  | .fieldMap, "get" => pure (.ofToken { kind := .field, object := token.object, field := call.textArg? 0 })
  | .field, "getdescribe" => pure (.ofToken (token.step .fieldDescribe))
  | .fieldDescribe, "getname" | .fieldDescribe, "getlocalname" => token.field.bind fun name => pure (.ofText name)
  | .fieldDescribe, "getsobjectfield" => pure (.ofToken (token.step .field))
  | _, _ => none

def schema : Handler := fun call heap =>
  match call.target with
  | .type _ =>
    if !call.isStaticOn "Schema" then none
    else
      match call.method with
      | "getglobaldescribe" => some (.ofToken { kind := .globalDescribe }, heap)
      | "describesobjects" => some (.unknown "List<Schema.DescribeSObjectResult>", heap)
      | _ => none
  | .value receiver =>
    match receiver.token? with
    | some token => some ((tokenMethod? token call heap).getD (schemaFallback call.method receiver.type, heap))
    | none => if receiver.type.startsWith "Schema." then some (schemaFallback call.method receiver.type, heap) else none

def schemaMember? (value : Value) (name : String) : Option Value := do
  let token ← value.token?
  match token.kind, Text.lower name with
  | .objectType, "fields" | .objectDescribe, "fields" => some (.ofToken (token.step .fieldMap))
  | .fieldMap, _ => some (.ofToken { kind := .field, object := token.object, field := some name })
  | .field, "getdescribe" => some (.ofToken (token.step .fieldDescribe))
  | _, _ => none

/-- The token of the first names, and the names after them. -/
def schemaHead? (names : List String) : Option (SchemaToken × List String) :=
  let object (name : String) : SchemaToken := { kind := .objectType, object := some name }
  match names with
  | first :: second :: rest =>
    let isObject := !systemNames.contains (Text.lower first)
    match Text.lower first, Text.lower second, rest with
    | "schema", "sobjecttype", third :: rest => some (object third, rest)
    | "sobjecttype", _, rest => some (object second, rest)
    | low, low2, rest =>
      match low, rest.head?.map Text.lower with
      | "schema", some "sobjecttype" => some (object second, rest.drop 1)
      | _, _ =>
        if !isObject then none
        else if low2 = "sobjecttype" then some (object first, rest)
        else some ({ kind := .field, object := some first, field := some second }, rest)
  | _ => none

/-- A description that is written as dotted names whose first one is neither a variable nor a declared
type. -/
def schemaReference? (names : List String) : Option Value := do
  let (token, rest) ← schemaHead? names
  rest.foldlM schemaMember? (.ofToken token)

end ApexPaths.Library
