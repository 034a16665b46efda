import ApexPaths.Pattern.Property.Tables

/-!
Classes of characters by name. A query is a plain name or a property and its value joined by an equals
sign, both in lower case without separators.
-/

namespace ApexPaths.Pattern.Property
set_option autoImplicit false

/-! ## Rules -/

def Script.rule (script : Script) : PropertyRule := { names := script.names, members := script.table }

def named? (rules : List PropertyRule) (name : String) : Option PropertyRule := rules.find? (·.names.contains name)

def valueRule? (property value : String) : Option PropertyRule :=
  match property with
  | "gc" => named? categories value
  | "sc" => (scripts.find? (·.names.contains value)).map Script.rule
  | "sb" => named? sentenceBreaks value
  | "wb" => named? wordBreaks value
  | "gcb" => named? clusterBreaks value
  | _ => none

def rule? (query : String) : Option PropertyRule :=
  match Text.cutAt? ['='] query.toList with
  | some (property, value) => valueRule? (String.ofList property) (String.ofList value)
  | none => named? flags query <|> named? categories query

/-- The characters of a rule. No rule refers to others more than eight levels deep. -/
def setWithin : Nat → PropertyRule → CharSet
  | 0, _ => .empty
  | n + 1, rule =>
    let set (entries : List String) : CharSet :=
      .unions (ofEntries entries :: ((entries.filter isName).filterMap rule?).map (setWithin n))
    (set rule.members).difference (set rule.less)

def set (rule : PropertyRule) : CharSet := setWithin 8 rule

/-! ## Scripts and ages -/

/-- The characters that a script uses, shared ones included. What scripts share is no longer common to all
nor inherited from the character before. -/
def Script.extended (script : Script) : CharSet :=
  if script.names.contains "common" || script.names.contains "inherited" then
    (ofEntries script.table).difference (.unions (scripts.map fun other => ofEntries other.shared))
  else (ofEntries script.table).union (ofEntries script.shared)

/-- The characters of a version of the character database and of all versions before it. -/
def ofAge? (age : String) : Option CharSet :=
  let before := ages.takeWhile fun rule => !rule.names.contains age
  (named? ages age).map fun rule => .unions ((before ++ [rule]).map fun rule => ofEntries rule.members)

/-! ## Names -/

/-- A name as it is compared: lower case without blanks, dashes, underscores and characters outside ASCII,
and without a leading "is". -/
def plainName (name : List Char) : String :=
  let plain (cs : List Char) : List Char :=
    (cs.filter fun c => c.toNat < 0x80 && c != ' ' && c != '-' && c != '_').map Char.toLower
  match name with
  | i :: s :: rest =>
    if i.toLower = 'i' ∧ s.toLower = 's' then
      if plain rest = ['c'] then "isc" else String.ofList (plain rest)
    else String.ofList (plain name)
  | _ => String.ofList (plain name)

/-- The characters of a class by one name: a property, a category or a script. -/
def ofName? (name : List Char) : Option CharSet :=
  let name := plainName name
  ((named? flags name <|> named? categories name).map set) <|> ((valueRule? "sc" name).map set)

/-- The characters with a value of a property, both by name. -/
def ofValue? (property value : List Char) : Option CharSet :=
  let value := plainName value
  match plainName property with
  | "gc" | "generalcategory" => (valueRule? "gc" value).map set
  | "sc" | "script" => (valueRule? "sc" value).map set
  | "scx" | "scriptextensions" => (scripts.find? (·.names.contains value)).map Script.extended
  | "age" => ofAge? value
  | "sb" | "sentencebreak" => (valueRule? "sb" value).map set
  | "wb" | "wordbreak" => (valueRule? "wb" value).map set
  | "gcb" | "graphemeclusterbreak" => (valueRule? "gcb" value).map set
  | _ => none

end ApexPaths.Pattern.Property
