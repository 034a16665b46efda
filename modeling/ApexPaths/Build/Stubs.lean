import ApexPaths.Source.Unit

/-!
Stubs of the standard types that source code commonly extends or implements.
-/

namespace ApexPaths.Build
set_option autoImplicit false

def exceptionStub : String :=
  "\n"
    ++ "global virtual class Exception \x7b\n"
    ++ "    global Exception() \x7b \x7d\n"
    ++ "    global Exception(String message) \x7b \x7d\n"
    ++ "    global virtual String getMessage() \x7b return null; \x7d\n"
    ++ "    global virtual String getTypeName() \x7b return null; \x7d\n"
    ++ "    global virtual Integer getLineNumber() \x7b return null; \x7d\n"
    ++ "    global virtual String getStackTraceString() \x7b return null; \x7d\n"
    ++ "    global virtual Exception getCause() \x7b return null; \x7d\n"
    ++ "    global virtual void setMessage(String message) \x7b \x7d\n"
    ++ "\x7d\n"

/-- The exceptions that only extend the general one. -/
def exceptionNames : List String :=
  ["AuraHandledException", "CalloutException", "DmlException", "HandledException", "IllegalArgumentException",
   "JSONException", "LimitException", "ListException", "MathException", "NoAccessException",
   "NullPointerException", "QueryException", "SecurityException", "SObjectException", "StringException",
   "TypeException"]

def schedulableStub : String :=
  "\n"
    ++ "global interface Schedulable \x7b\n"
    ++ "    void execute(SchedulableContext context);\n"
    ++ "\x7d\n"

def queueableStub : String :=
  "\n"
    ++ "global interface Queueable \x7b\n"
    ++ "    void execute(QueueableContext context);\n"
    ++ "\x7d\n"

def comparableStub : String :=
  "\n"
    ++ "global interface Comparable \x7b\n"
    ++ "    Integer compareTo(Object other);\n"
    ++ "\x7d\n"

def databaseStub : String :=
  "\n"
    ++ "global class Database \x7b\n"
    ++ "    global interface Batchable \x7b\n"
    ++ "        Iterable<SObject> start(Database.BatchableContext context);\n"
    ++ "        void execute(Database.BatchableContext context, List<SObject> scope);\n"
    ++ "        void finish(Database.BatchableContext context);\n"
    ++ "    \x7d\n"
    ++ "    global interface Stateful \x7b \x7d\n"
    ++ "    global interface AllowsCallouts \x7b \x7d\n"
    ++ "\x7d\n"

/-- The stubs by type name, in the order in which they enter a graph. -/
def stubSources : List (String × String) :=
  [("Exception", exceptionStub)]
    ++ exceptionNames.map (fun name => (name, "global class " ++ name ++ " extends Exception \x7b \x7d"))
    ++ [("Schedulable", schedulableStub), ("Queueable", queueableStub), ("Comparable", comparableStub),
        ("Database", databaseStub)]

def stubUnits : Except Source.ParseError (List Source.CompilationUnit) :=
  Source.parseAll (stubSources.map fun (name, text) => ("StandardLibrary/" ++ name ++ ".cls", text))

end ApexPaths.Build
