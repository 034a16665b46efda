import ApexPaths.Library.Call
import ApexPaths.Number.Read
import ApexPaths.Pattern.Replace

/-!
Methods of the system types, conversions of primitive values, results of queries and the variables of a
trigger.
-/

namespace ApexPaths.Library
set_option autoImplicit false

/-! ## Queries -/

/-- The object after the first `FROM` of a query. -/
def sourceClause : Option Pattern.Regex := Pattern.Regex.ofText? "(?i)\\bFROM\\s+(\\w+)"

def queriedObject? (query : String) : Option String := sourceClause.bind (·.firstGroup? query 1)

/-- The rows of a query: a list of the queried object with unknown items. -/
def queryResult (query : Option String) (heap : Heap) : Value × Heap :=
  heap.newList (((query.bind queriedObject?).map TypeName.canonical).getD "SObject") .unknown

/-! ## System types -/

def systemMethod? (method : String) : Option Value :=
  match method with
  | "debug" | "assert" | "assertequals" | "assertnotequals" | "enqueuejob" | "abortjob" => some .void
  | "now" => some (.unknown "Datetime")
  | "today" => some (.unknown "Date")
  | "currenttimemillis" => some (.unknown "Long")
  | "schedule" | "schedulebatch" | "executebatch" => some (.unknown "Id")
  | _ => none

def databaseMethod? (call : LibraryCall) (heap : Heap) : Option (Value × Heap) :=
  let unknown (type : String) : Option (Value × Heap) := some (.unknown type, heap)
  match call.method with
  | "query" | "querywithbinds" => some (queryResult (call.textArg? 0) heap)
  | "getquerylocator" => unknown "Database.QueryLocator"
  | "countquery" | "countquerywithbinds" => unknown "Integer"
  | "insert" | "update" => unknown "List<Database.SaveResult>"
  | "upsert" => unknown "List<Database.UpsertResult>"
  | "delete" => unknown "List<Database.DeleteResult>"
  | "undelete" => unknown "List<Database.UndeleteResult>"
  | "setsavepoint" => unknown "System.Savepoint"
  | "rollback" => some (.void, heap)
  | _ => none

def userInfo? (method : String) : Option Value :=
  if !method.startsWith "get" then none
  else if ["getuserid", "getorganizationid", "getprofileid", "getuserroleid"].contains method then some (.unknown "Id")
  else if method = "gettimezone" then some (.unknown "TimeZone")
  else some (.unknown "String")

def testMethod? (method : String) : Option Value :=
  match method with
  | "isrunningtest" => some (.unknown "Boolean")
  | "starttest" | "stoptest" => some .void
  | _ => none

/-! ## Conversions -/

def int32? (text : String) : Option Int :=
  (Text.int64? text).filter fun n => -2147483648 ≤ n && n ≤ 2147483647

/-- The conversion of a known value to a type, through its text. -/
def converted? (type : String) (value : Value) : Option Value := do
  let literal ← value.literal?
  if value.isNull then none
  else
    let text := String.ofList (Text.trim literal.display.toList)
    match type with
    | "Integer" => (int32? text).map .ofInt
    | "Long" => (Text.int64? text).map fun n => .ofLiteral (.long n)
    | "Decimal" | "Double" => (Double.read? text).map fun x => .make type (.literal (.decimal x))
    | "Boolean" => some (.ofBool (Text.eqIgnoringCase text "true"))
    | "Id" => some (.make "Id" (.literal (.text text)))
    | _ => none

def valueOf? (call : LibraryCall) : Option Value :=
  (["Integer", "Long", "Decimal", "Double", "Boolean", "Id"].find? call.isStaticOn).map fun type =>
    ((call.arg? 0).bind (converted? type)).getD (.unknown type)

def system : Handler := fun call heap =>
  match call.target with
  | .value _ => none
  | .type _ =>
    let pure (value : Option Value) : Option (Value × Heap) := value.map (·, heap)
    if call.isStaticOn "System" then pure (systemMethod? call.method)
    else if call.isStaticOn "Database" then databaseMethod? call heap
    else if call.isStaticOn "UserInfo" then pure (userInfo? call.method)
    else if call.isStaticOn "Limits" then pure (if call.method.startsWith "get" then some (.unknown "Integer")
    else none)
    else if call.isStaticOn "Test" then pure (testMethod? call.method)
    else if call.method = "valueof" then pure (valueOf? call)
    else none

/-! ## Triggers -/

/-- A variable of the running trigger on an object. -/
def triggerVariable? (name target : String) : Option Value :=
  match Text.lower name with
  | "new" | "old" => some (.unknown (TypeName.listOf target))
  | "newmap" | "oldmap" => some (.unknown (TypeName.mapOf "Id" target))
  | "isinsert" | "isupdate" | "isdelete" | "isundelete" | "isbefore" | "isafter" | "isexecuting" =>
    some (.unknown "Boolean")
  | "size" => some (.unknown "Integer")
  | "operationtype" => some (.unknown "System.TriggerOperation")
  | _ => none

end ApexPaths.Library
