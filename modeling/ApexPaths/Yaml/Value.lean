import ApexPaths.Document
import ApexPaths.Number.Read
import ApexPaths.Yaml.Node

/-!
From nodes to documents. A plain scalar is read as what it looks like, a tag of the core vocabulary says what
a scalar is, and a tag of its own stays with its value. An alias stands for a copy of its node; how often that
may happen is bounded by the size of the text, and collections nest at most 128 deep.
-/

namespace ApexPaths.Yaml
set_option autoImplicit false

open Text

/-! ## Plain scalars -/

def isNullWord (s : String) : Bool := ["null", "Null", "NULL", "~"].contains s

def flagWord? (s : String) : Option Bool :=
  if ["true", "True", "TRUE"].contains s then some true
  else if ["false", "False", "FALSE"].contains s then some false
  else none

/-- A list of digits with zeros before them is not a number. -/
def isPadded : List Char → Bool
  | '0' :: c :: cs => (c :: cs).all Char.isDigit
  | _ => false

/-- A number without a sign: hexadecimal, octal or binary after its mark, else decimal. -/
def natural? : List Char → Option Nat
  | '0' :: 'x' :: cs => digitsInBase? 16 cs
  | '0' :: 'o' :: cs => digitsInBase? 8 cs
  | '0' :: 'b' :: cs => digitsInBase? 2 cs
  | cs => if isPadded cs then none else digits? cs

/-- An integer, if the text is one of at most 128 bits, and whether it fits 64 bits. -/
def integer? (cs : List Char) : Option (Int × Bool) :=
  let positive (n : Nat) : Option (Int × Bool) :=
    if n < 340282366920938463463374607431768211456 then some (n, decide (n < 18446744073709551616)) else none
  match cs with
  | '-' :: rest =>
    match natural? rest with
    | some n =>
      if n ≤ 170141183460469231731687303715884105728 then some (-(n : Int), decide (n ≤ 9223372036854775808)) else none
    | none => none
  | '+' :: rest => (natural? rest).bind positive
  | _ => (natural? cs).bind positive

/-- A finite number, an infinity or the value that is no number. -/
def real? (s : String) : Option Float :=
  let afterPlus := match s.toList with
    | '+' :: rest => rest
    | cs => cs
  if s.startsWith "+" && (afterPlus.head?.any fun c => c == '+' || c == '-') then none
  else if [".inf", ".Inf", ".INF"].contains (String.ofList afterPlus) then some (1.0 / 0.0)
  else if ["-.inf", "-.Inf", "-.INF"].contains s then some (-1.0 / 0.0)
  else if [".nan", ".NaN", ".NAN"].contains s then some (0.0 / 0.0)
  else (Double.read? (String.ofList afterPlus)).filter Float.isFinite

/-- The value of a plain scalar. An integer that needs more than 64 bits is refused, one that needs more than
128 is read as a real number. -/
def plainValue? (s : String) : Option Document :=
  if s.isEmpty || isNullWord s then some .null
  else match flagWord? s with
    | some b => some (.flag b)
    | none =>
      match integer? s.toList with
      | some (n, fits) => if fits then some (.int n) else none
      | none =>
        let unsigned := match s.toList with
          | '-' :: rest => rest
          | '+' :: rest => rest
          | cs => cs
        match if isPadded unsigned then none else real? s with
        | some x => some (.real x)
        | none => some (.text s)

/-! ## Tags -/

/-- The name of a tag that stays with its value: one that starts with the mark of tags. -/
def ownTag? : List UInt8 → Option String
  | [33] => some "!"
  | 33 :: name => String.fromUTF8? ⟨name.toArray⟩
  | _ => none

/-- Whether a tag is the one of a name in the core vocabulary. -/
def isCoreTag (name : String) (tag : List UInt8) : Bool := tag == ("tag:yaml.org,2002:" ++ name).toUTF8.toList

def scalarValue? (tag : Option (List UInt8)) (plain : Bool) (text : String) : Option Document :=
  match tag with
  | none => if plain then plainValue? text else some (.text text)
  | some bytes =>
    if isCoreTag "bool" bytes then (flagWord? text).map .flag
    else if isCoreTag "int" bytes then
      match integer? text.toList with
      | some (n, true) => some (.int n)
      | _ => none
    else if isCoreTag "float" bytes then (real? text).map .real
    else if isCoreTag "null" bytes then if isNullWord text then some .null else none
    else if plain && bytes.head? == some 33 then plainValue? text
    else some (.text text)

/-! ## Values -/

/-- Readers that count down how many aliases may still be followed. -/
abbrev ValueReader (α : Type) := StateT Nat Option α

/-- The node itself, or the one that it refers to, where it is not below a tag. -/
def follow (tree : Tree) (underTag : Bool) : Node → ValueReader (Bool × Node)
  | .alias number => do
    match ← get with
    | 0 => failure
    | left + 1 =>
      set left
      return (false, ← tree.anchored? number)
  | node => return (underTag, node)

/-- The value of a node of at most `depth` nested collections. `underTag` says that the tag of the node was
taken already; it goes on to the keys of a mapping. Keys of a mapping differ. -/
def Node.value (tree : Tree) (depth : Nat) (underTag : Bool) (node : Node) : ValueReader Document := do
  let (underTag, node) ← follow tree underTag node
  let own? (tag : Option (List UInt8)) : Option String := if underTag then none else tag.bind ownTag?
  let withTag (tag : Option (List UInt8)) (value : Document) : Document :=
    match own? tag with
    | some name => .tagged name value
    | none => value
  match node, depth with
  | .scalar tag plain text, _ =>
    return withTag tag (← scalarValue? (if underTag || (own? tag).isSome then none else tag) plain text)
  | .list tag items, depth + 1 => return withTag tag (.list (← items.mapM (Node.value tree depth false)))
  | .mapping tag entries, depth + 1 =>
    let fields ← entries.foldlM (fun fields entry => do
      let key ← Node.value tree depth (underTag || (own? tag).isSome) entry.1
      guard (!fields.any fun (field : Document × Document) => field.1.same key)
      return (key, ← Node.value tree depth false entry.2) :: fields) []
    return withTag tag (.record fields.reverse)
  | _, _ => failure

def maxDepth : Nat := 128

def document? (text : String) : Option Document := do
  let tree ← Tree.ofTokens? maxDepth (← tokens? text)
  match tree.root with
  | none => return .null
  | some root => return (← (root.value tree maxDepth false).run (100 * tree.size)).1

end ApexPaths.Yaml
