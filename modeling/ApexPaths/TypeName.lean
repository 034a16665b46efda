import ApexPaths.Text.Case
import ApexPaths.Text.Split

/-!
Type names. References to types ignore case and have aliases (`String[]` is `List<String>`,
`SObjectType` is `Schema.SObjectType`), so names are compared by their canonical spelling.
-/

namespace ApexPaths.TypeName

open Text

/-- The built-in names, each in its canonical spelling. -/
def wellKnown : List String :=
  ["Object", "SObject", "String", "Integer", "Long", "Decimal", "Double", "Boolean", "Id", "Date", "Datetime", "Time",
   "Blob", "void", "List", "Set", "Map", "Exception", "Schema", "Schema.SObjectType", "Schema.SObjectField",
   "Schema.DescribeSObjectResult", "Schema.DescribeFieldResult", "Schema.FieldSet", "System", "Database", "UserInfo",
   "Math", "Trigger"]

/-- The names that may be written without the leading `Schema.`. -/
def schemaAliases : List String :=
  ["SObjectType", "SObjectField", "DescribeSObjectResult", "DescribeFieldResult", "FieldSet"]

def primitives : List String :=
  ["String", "Integer", "Long", "Decimal", "Double", "Boolean", "Id", "Date", "Datetime", "Time", "Blob"]

/-! ## Generic arguments -/

/-- The pieces of a text between commas outside angle brackets, each trimmed. A last piece that is
blank is dropped. `current` holds the open piece, last character first. -/
def splitArguments (depth : Nat) (current : List Char) : List Char → List (List Char)
  | [] =>
    let last := trim current.reverse
    if last.isEmpty then [] else [last]
  | '<' :: rest => splitArguments (depth + 1) ('<' :: current) rest
  | '>' :: rest => splitArguments (depth - 1) ('>' :: current) rest
  | ',' :: rest =>
    if depth = 0 then trim current.reverse :: splitArguments 0 [] rest
    else splitArguments depth (',' :: current) rest
  | c :: rest => splitArguments depth (c :: current) rest

theorem length_le_of_mem_splitArguments {depth : Nat} {current cs arg : List Char}
    (h : arg ∈ splitArguments depth current cs) : arg.length ≤ current.length + cs.length := by
  fun_induction splitArguments depth current cs with
  | case1 depth current last hlast => simp at h
  | case2 depth current last hlast =>
    simp only [List.mem_singleton] at h
    subst h
    have := length_trim_le current.reverse
    simp at this
    simp; omega
  | case3 depth current rest ih => have := ih h; simp at this ⊢; omega
  | case4 depth current rest ih => have := ih h; simp at this ⊢; omega
  | case5 current rest ih =>
    rcases List.mem_cons.1 h with h | h
    · subst h
      have := length_trim_le current.reverse
      simp at this
      simp; omega
    · have := ih h; simp at this ⊢; omega
  | case6 depth current rest hd ih => have := ih h; simp at this ⊢; omega
  | case7 depth current c rest _ _ _ ih => have := ih h; simp at this ⊢; omega

/-- A name as its base and its generic arguments: `Map<String,List<Id>>` is `Map` with `String` and
`List<Id>`. A name without a matching pair of brackets has no arguments. -/
def splitGenericChars (cs : List Char) : List Char × List (List Char) :=
  let base := cs.takeWhile (· != '<')
  match cs.dropWhile (· != '<') with
  | [] => (cs, [])
  | _ :: inner => if cs.getLast? = some '>' then (base, splitArguments 0 [] inner.dropLast) else (cs, [])

theorem length_lt_of_mem_splitGenericChars {cs arg : List Char} (h : arg ∈ (splitGenericChars cs).2) :
    arg.length < cs.length := by
  unfold splitGenericChars at h
  split at h
  · simp at h
  · next c inner heq =>
    split at h
    · have h1 := length_le_of_mem_splitArguments h
      have h2 := (List.dropWhile_sublist (· != '<') (l := cs)).length_le
      rw [heq] at h2
      simp at h1 h2
      omega
    · simp at h

/-- A name as its base and its generic arguments. -/
def splitGeneric (ty : String) : String × List String :=
  let (base, args) := splitGenericChars ty.toList
  (String.ofList base, args.map String.ofList)

/-- The name without its generic arguments. -/
def base (ty : String) : String := (splitGeneric ty).1

/-! ## Canonical spelling -/

/-- The canonical spelling of a name without arguments. -/
def canonicalBase (name : String) : String :=
  match wellKnown.find? (eqIgnoringCase · name) with
  | some known => known
  | none =>
    match schemaAliases.find? (eqIgnoringCase · name) with
    | some known => "Schema." ++ known
    | none => name

/-- The canonical spelling of a name that holds no blanks. -/
def canonicalCompact (cs : List Char) : List Char :=
  if cs.isEmpty then "Object".toList
  else
    match h : dropEnd? ['[', ']'] cs with
    | some element =>
      have := length_dropEnd? h
      "List<".toList ++ canonicalCompact element ++ ['>']
    | none =>
      let args := (splitGenericChars cs).2.attach.map fun ⟨arg, hmem⟩ =>
        have := length_lt_of_mem_splitGenericChars hmem
        canonicalCompact arg
      let name := (canonicalBase (String.ofList (splitGenericChars cs).1)).toList
      if args.isEmpty then name else name ++ ['<'] ++ joinWith [','] args ++ ['>']
termination_by cs.length
decreasing_by
  · simp at this
    omega
  · omega

/-- The canonical spelling of a type name: no blanks, built-in names in their own case, `T[]` as
`List<T>`, and `Object` for the empty name. -/
def canonical (raw : String) : String :=
  String.ofList (canonicalCompact (raw.toList.filter (!isBlank ·)))

/-! ## Questions about names -/

def same (a b : String) : Bool := eqIgnoringCase (canonical a) (canonical b)

def isPrimitive (ty : String) : Bool := primitives.contains (canonical ty)

def isCollection (ty : String) : Bool := ["List", "Set", "Map"].contains (base (canonical ty))

/-- The element type of a list or a set, the value type of a map. -/
def element? (ty : String) : Option String :=
  match splitGeneric (canonical ty) with
  | ("List", [element]) => some element
  | ("Set", [element]) => some element
  | ("Map", [_, value]) => some value
  | _ => none

def key? (ty : String) : Option String :=
  match splitGeneric (canonical ty) with
  | ("Map", [key, _]) => some key
  | _ => none

def listOf (element : String) : String := "List<" ++ canonical element ++ ">"

def setOf (element : String) : String := "Set<" ++ canonical element ++ ">"

def mapOf (key value : String) : String := "Map<" ++ canonical key ++ "," ++ canonical value ++ ">"

/-- The numeric types, each convertible to every later one. -/
def numericOrder : List String := ["Integer", "Long", "Double", "Decimal"]

/-- The number of widening steps of an implicit conversion, when there is one. -/
def wideningDistance? (source target : String) : Option Nat :=
  let source := canonical source
  let target := canonical target
  if source = "Id" ∧ target = "String" then some 1
  else
    match numericOrder.idxOf? source, numericOrder.idxOf? target with
    | some i, some j => if i < j then some (j - i) else none
    | _, _ => none

end ApexPaths.TypeName
