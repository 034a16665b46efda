import ApexPaths.Yaml.Lexer

/-!
From tokens to a tree of nodes. An anchor names the node that it stands at, and an alias refers to a name
that was given before it, possibly by a node that is still open. A text holds one document.
-/

namespace ApexPaths.Yaml
set_option autoImplicit false

/-- A node of a document. -/
inductive Node where
  | alias (number : Nat)
  | scalar (tag : Option (List UInt8)) (plain : Bool) (text : String)
  | list (tag : Option (List UInt8)) (items : List Node)
  | mapping (tag : Option (List UInt8)) (entries : List (Node × Node))
  deriving Inhabited

/-- A node that was given a name: the number of the name, and which named node it is in order of their starts. -/
structure Anchored where
  number : Nat
  ordinal : Nat
  node : Node
  deriving Inhabited

/-- The state of reading nodes. A name that is given anew gets a number anew: how many different names there
were before. `size` counts a scalar or an alias once and a collection twice. -/
structure Reading where
  tokens : List Token
  stems : List (String × List UInt8) := []
  names : List (String × Nat) := []
  started : Nat := 0
  anchored : List Anchored := []
  size : Nat := 0
  deriving Inhabited

abbrev NodeReader (α : Type) := StateT Reading Option α

namespace NodeReader

/-! ## Steps -/

def peek : NodeReader (Option Token) := do return (← get).tokens.head?

def advance : NodeReader Unit := modify fun reading => { reading with tokens := reading.tokens.drop 1 }

/-- Whether one of the given tokens comes next. -/
def nextIn (tokens : List Token) : NodeReader Bool := do return (← peek).any tokens.contains

def takeIf (token : Token) : NodeReader Bool := do
  if ← nextIn [token] then
    advance
    return true
  else return false

def count (size : Nat) : NodeReader Unit := modify fun reading => { reading with size := reading.size + size }

/-- Read again and again until there is nothing more; each thing takes a token at least. -/
def untilNone {α : Type} (read : NodeReader (Option α)) : NodeReader (List α) := fun reading =>
  go (reading.tokens.length + 1) [] reading
where
  go : Nat → List α → NodeReader (List α)
    | 0, _ => failure
    | n + 1, found => do
      match ← read with
      | some a => go n (a :: found)
      | none => return found.reverse

/-! ## Properties -/

/-- Give a name to the node that starts here. -/
def giveName (name : String) : NodeReader (Nat × Nat) := do
  let reading ← get
  let number := reading.names.length
  set { reading with
    names := (name, number) :: reading.names.filter (·.1 != name)
    started := reading.started + 1 }
  return (number, reading.started)

/-- The bytes of a tag: a stem and a suffix, each up to a zero byte. -/
def tagOf? (handle : String) (suffix : List UInt8) : NodeReader (List UInt8) := do
  let upToZero (bytes : List UInt8) : List UInt8 := bytes.takeWhile (· != 0)
  if handle.isEmpty then return upToZero suffix
  match (← get).stems.lookup handle with
  | some stem => return upToZero stem ++ upToZero suffix
  | none => failure

/-- The name and the tag of a node, in either order. -/
def properties : NodeReader (Option (Nat × Nat) × Option (List UInt8)) := do
  let anchor? : NodeReader (Option (Nat × Nat)) := do
    match ← peek with
    | some (.anchor name) => do
      advance
      return some (← giveName name)
    | _ => return none
  let tag? : NodeReader (Option (List UInt8)) := do
    match ← peek with
    | some (.tag handle suffix) => do
      advance
      return some (← tagOf? handle suffix)
    | _ => return none
  let before ← anchor?
  let tag ← tag?
  match before with
  | some name => return (some name, tag)
  | none => return (← if tag.isSome then anchor? else pure none, tag)

/-- Keep a finished node under its name. -/
def keep (name : Option (Nat × Nat)) (node : Node) : NodeReader Node := do
  match name with
  | some (number, ordinal) =>
    modify fun reading => { reading with anchored := ⟨number, ordinal, node⟩ :: reading.anchored }
  | none => pure ()
  return node

def absent : NodeReader Node := do
  count 1
  return .scalar none true ""

/-! ## Collections

The readers take the reader of the nodes inside as an argument. -/

/-- A node, or none written if one of the given tokens comes next. -/
def writtenBefore (ends : List Token) (node : NodeReader Node) : NodeReader Node := do
  if ← nextIn ends then absent else node

/-- The items of a list in a block, up to its end. -/
def blockItems (node : NodeReader Node) : NodeReader (List Node) := untilNone do
  if ← takeIf .blockEntry then some <$> writtenBefore [.blockEntry, .blockEnd] node
  else if ← takeIf .blockEnd then return none
  else failure

/-- The items of a list that is not indented below its key; any other token ends it. -/
def levelItems (node : NodeReader Node) : NodeReader (List Node) := untilNone do
  if ← takeIf .blockEntry then some <$> writtenBefore [.blockEntry, .key, .value, .blockEnd] node
  else return none

/-- The entries of a mapping in a block, up to its end. A key alone has no value, and a value alone no key. -/
def blockEntries (node : NodeReader Node) : NodeReader (List (Node × Node)) := untilNone do
  let ends : List Token := [.key, .value, .blockEnd]
  if ← takeIf .key then
    let key ← writtenBefore ends node
    let value ← if ← takeIf .value then writtenBefore ends node else absent
    return some (key, value)
  else if ← takeIf .blockEnd then return none
  else failure

/-- What a separator has to stand between: the items in brackets, up to the closing one. -/
def separated {α : Type} (close : Token) (item : NodeReader α) : NodeReader (List α) := do
  if ← takeIf close then return []
  let first ← item
  let rest ← untilNone do
    if ← takeIf close then return none
    else if ← takeIf .flowEntry then
      if ← takeIf close then return none else some <$> item
    else failure
  return first :: rest

/-- The value of an entry in brackets, or none if it is not written. -/
def flowValue (close : Token) (node : NodeReader Node) : NodeReader Node := do
  if ← takeIf .value then writtenBefore [.flowEntry, close] node else absent

def flowEntry (node : NodeReader Node) : NodeReader (Node × Node) := do
  if ← takeIf .key then
    let key ← writtenBefore [.value, .flowEntry, .flowMappingEnd] node
    return (key, ← flowValue .flowMappingEnd node)
  else return (← node, ← absent)

/-- The only entry of a mapping that is an item of a list. If its key is not written, the token that shows it
is passed over. -/
def pair (node : NodeReader Node) : NodeReader (Node × Node) := do
  let key ← if ← nextIn [.value, .flowEntry, .flowListEnd] then advance *> absent else node
  return (key, ← flowValue .flowListEnd node)

/-! ## Nodes -/

/-- A node with at most `depth` collections around a scalar. `inBlock` allows blocks, and `level` a list that is
not indented. -/
def node (depth : Nat) (inBlock level : Bool) : NodeReader Node := do
  match ← peek with
  | some (.alias name) =>
    advance
    count 1
    match (← get).names.lookup name with
    | some number => return .alias number
    | none => failure
  | _ =>
    let (name, tag) ← properties
    match ← peek with
    | some (.scalar plain text) =>
      advance
      count 1
      keep name (.scalar tag plain text)
    | next =>
      match depth with
      | 0 => if name.isSome || tag.isSome then emptyNode name tag else failure
      | depth + 1 =>
        let inner := node depth
        match next with
        | some .blockEntry =>
          if level then
            count 2
            keep name (.list tag (← levelItems (inner true false)))
          else emptyNode name tag
        | some .flowListStart =>
          advance
          count 2
          let pairItem : NodeReader Node := do
            match depth with
            | 0 => failure
            | depth + 1 =>
              count 2
              return .mapping none [← pair (node depth false false)]
          keep name (.list tag (← separated .flowListEnd do if ← takeIf .key then pairItem else inner false false))
        | some .flowMappingStart =>
          advance
          count 2
          keep name (.mapping tag (← separated .flowMappingEnd (flowEntry (inner false false))))
        | some .blockListStart =>
          if inBlock then
            advance
            count 2
            keep name (.list tag (← blockItems (inner true false)))
          else emptyNode name tag
        | some .blockMappingStart =>
          if inBlock then
            advance
            count 2
            keep name (.mapping tag (← blockEntries (inner true true)))
          else emptyNode name tag
        | _ => emptyNode name tag
where
  /-- A node of which only the name or the tag is written. -/
  emptyNode (name : Option (Nat × Nat)) (tag : Option (List UInt8)) : NodeReader Node := do
    guard (name.isSome || tag.isSome)
    count 1
    keep name (.scalar tag true "")

/-! ## Documents -/

/-- The directives before a document: at most one version, and one stem for a handle. -/
def directives : NodeReader Unit := do
  let found ← untilNone do
    match ← peek with
    | some (.version major minor) =>
      advance
      guard (major = 1 && (minor = 1 || minor = 2))
      return some none
    | some (.tagStem handle stem) =>
      advance
      return some (some (handle, stem))
    | _ => return none
  let stems := found.filterMap id
  guard (found.length ≤ stems.length + 1)
  guard (decide (stems.map (·.1)).Nodup)
  modify fun reading => { reading with
    stems := stems ++ [("!", [33]), ("!!", "tag:yaml.org,2002:".toUTF8.toList)] }

/-- The only document of a text, of at most `depth` nested collections; none if there is nothing. -/
def document (depth : Nat) : NodeReader (Option Node) := do
  if (← peek).isNone then return none
  let before := (← get).tokens
  directives
  let isExplicit ← takeIf .documentStart
  guard (isExplicit || (← get).tokens.length = before.length)
  let root ← match isExplicit, ← peek with
    | true, none => absent
    | true, some (.version _ _) => absent
    | true, some (.tagStem _ _) => absent
    | true, some .documentStart => absent
    | true, some .documentEnd => absent
    | _, _ => node depth true false
  let _ ← untilNone do return if ← takeIf .documentEnd then some () else none
  guard (← peek).isNone
  return some root

end NodeReader

/-- The only document of a text with the nodes that have names, by number. -/
structure Tree where
  root : Option Node
  anchored : List Anchored
  size : Nat
  deriving Inhabited

/-- The node under a number: of several, the one that started last. -/
def Tree.anchored? (tree : Tree) (number : Nat) : Option Node :=
  let found := tree.anchored.filter (·.number = number)
  (found.foldl (fun best a => match best with
    | some (b : Anchored) => if b.ordinal < a.ordinal then some a else best
    | none => some a) none).map (·.node)

/-- The tree of a text whose collections nest at most `depth` deep. -/
def Tree.ofTokens? (depth : Nat) (tokens : List Token) : Option Tree := do
  let (root, reading) ← NodeReader.document depth { tokens }
  return ⟨root, reading.anchored, reading.size⟩

end ApexPaths.Yaml
