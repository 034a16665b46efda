import ApexPaths.Yaml.Value
import ApexPaths.Proofs.Text.Decimal
import ApexPaths.Proofs.Yaml.Lines

/-!
What lines of words say. A document that is written as lines of words is read back with its keys and values in order.
-/

namespace ApexPaths.Yaml
set_option autoImplicit false

variable {text : String} {c : Char} {cs : List Char}

/-! ## Nodes -/

/-- A reading with given tokens ahead, after nodes of a given size. -/
def Reading.ahead (base : Reading) (size : Nat) (tokens : List Token) : Reading := { base with tokens, size }

@[simp]
theorem Reading.tokens_ahead (base : Reading) (size : Nat) (tokens : List Token) :
    (base.ahead size tokens).tokens = tokens := rfl

def fieldNode (field : String × String) : Node × Node := (.scalar none true field.1, .scalar none true field.2)

/-- The node of an entry. -/
def entryNode : Entry → Node × Node
  | .field pair => fieldNode pair
  | .block key first more => (.scalar none true key, .mapping none ((first :: more).map fieldNode))

namespace NodeReader

/-- A reader that finds some things one after the other, and then nothing more. -/
inductive Finds {α : Type} (read : NodeReader (Option α)) : Reading → List α → Reading → Prop where
  | nothing {reading after : Reading} (hread : read reading = some (none, after)) : Finds read reading [] after
  | next {reading middle after : Reading} {a : α} {found : List α} (hread : read reading = some (some a, middle))
    (finds : Finds read middle found after) : Finds read reading (a :: found) after

theorem Finds.go_eq {α : Type} {read : NodeReader (Option α)} {reading after : Reading} {found : List α}
    (finds : Finds read reading found after) {fuel : Nat} (hfuel : found.length < fuel) (before : List α) :
    untilNone.go read fuel before reading = some (before.reverse ++ found, after) := by
  induction finds generalizing fuel before with
  | nothing hread =>
    obtain ⟨fuel, rfl⟩ := Nat.exists_eq_succ_of_ne_zero (Nat.ne_of_gt hfuel)
    rw [untilNone.go]
    show (read _).bind _ = _
    rw [hread, List.append_nil]
    rfl
  | @next reading middle after a found hread finds ih =>
    obtain ⟨fuel, rfl⟩ := Nat.exists_eq_succ_of_ne_zero (Nat.ne_of_gt (Nat.zero_lt_of_lt hfuel))
    rw [untilNone.go]
    show (read _).bind _ = _
    rw [hread]
    refine (ih (Nat.lt_of_succ_lt_succ hfuel) (a :: before)).trans ?_
    rw [List.reverse_cons, List.append_assoc, List.singleton_append]

theorem Finds.untilNone_eq {α : Type} {read : NodeReader (Option α)} {reading after : Reading} {found : List α}
    (finds : Finds read reading found after) (hfuel : found.length ≤ reading.tokens.length) :
    untilNone read reading = some (found, after) :=
  finds.go_eq (Nat.lt_succ_of_le hfuel) []

section

variable (base : Reading) (size : Nat) (next : Token) (rest : List Token)

theorem takeIf_ahead (token : Token) : takeIf token (base.ahead size (next :: rest)) =
    some (if token = next then (true, base.ahead size rest) else (false, base.ahead size (next :: rest))) := by
  by_cases h : token = next
  · subst h
    simp [takeIf, nextIn, peek, advance, bind, StateT.bind, get, getThe, MonadStateOf.get, StateT.get, pure,
      StateT.pure, modify, modifyGet, MonadStateOf.modifyGet, StateT.modifyGet, Reading.ahead]
  · simp [takeIf, nextIn, peek, bind, StateT.bind, get, getThe, MonadStateOf.get, StateT.get, pure, StateT.pure,
      Reading.ahead, h, Ne.symm h]

theorem writtenBefore_ahead {ends : List Token} (node : NodeReader Node) (h : next ∉ ends) :
    writtenBefore ends node (base.ahead size (next :: rest)) = node (base.ahead size (next :: rest)) := by
  simp [writtenBefore, nextIn, peek, bind, StateT.bind, get, getThe, MonadStateOf.get, StateT.get, pure, StateT.pure,
    Reading.ahead, h]

theorem node_scalar (depth : Nat) (inBlock level : Bool) (text : String) :
    node depth inBlock level (base.ahead size (.scalar true text :: rest)) =
      some (.scalar none true text, base.ahead (size + 1) rest) := by
  -- The recursor computes at once: the equation of the definition starts with a match on the next token.
  cases depth <;> (delta node; rfl)

/-! ### Mappings -/

/-- Read a key and a value of a block mapping, if there are more. -/
def blockPair? (node : NodeReader Node) : NodeReader (Option (Node × Node)) := do
  let ends : List Token := [.key, .value, .blockEnd]
  if ← takeIf .key then
    let key ← writtenBefore ends node
    let value ← if ← takeIf .value then writtenBefore ends node else absent
    return some (key, value)
  else if ← takeIf .blockEnd then return none
  else failure

theorem blockEntries_eq (node : NodeReader Node) : blockEntries node = untilNone (blockPair? node) := rfl

theorem node_mapping (depth : Nat) (level : Bool) :
    node (depth + 1) true level (base.ahead size (.blockMappingStart :: rest)) =
      (blockEntries (node depth true true) (base.ahead (size + 2) rest)).map fun (entries, after) =>
      (.mapping none entries, after) := by
  have hstep : node (depth + 1) true level (base.ahead size (.blockMappingStart :: rest)) =
      (blockEntries (node depth true true) (base.ahead (size + 2) rest)).bind fun found =>
      keep none (.mapping none found.1) found.2 := by
    delta node
    rfl
  rw [hstep]
  cases blockEntries (node depth true true) (base.ahead (size + 2) rest) <;> rfl

theorem blockPair?_word (depth : Nat) (key value : String) :
    blockPair? (node depth true true)
    (base.ahead size (.key :: .scalar true key :: .value :: .scalar true value :: rest)) =
    some (some (.scalar none true key, .scalar none true value), base.ahead (size + 1 + 1) rest) := by
  simp [blockPair?, bind, StateT.bind, takeIf_ahead, writtenBefore_ahead, node_scalar, pure, StateT.pure]

theorem blockPair?_block (depth : Nat) (key : String) {entries : List (Node × Node)} {after : Nat} {tokens : List Token}
    (h : blockEntries (node depth true true) (base.ahead (size + 1 + 2) rest) =
    some (entries, base.ahead after tokens)) :
    blockPair? (node (depth + 1) true true)
    (base.ahead size (.key :: .scalar true key :: .value :: .blockMappingStart :: rest)) =
    some (some (.scalar none true key, .mapping none entries), base.ahead after tokens) := by
  simp [blockPair?, bind, StateT.bind, takeIf_ahead, writtenBefore_ahead, node_scalar, pure, StateT.pure,
    node_mapping, h]

theorem blockPair?_end (node : NodeReader Node) :
    blockPair? node (base.ahead size (.blockEnd :: rest)) = some (none, base.ahead size rest) := by
  simp [blockPair?, bind, StateT.bind, takeIf_ahead, pure, StateT.pure]

end

/-! ### Entries -/

theorem finds_fields (depth : Nat) (base : Reading) (size : Nat) (fields : List (String × String)) (rest : List Token) :
    Finds (blockPair? (node depth true true)) (base.ahead size (fields.flatMap fieldTokens ++ .blockEnd :: rest))
      (fields.map fieldNode) (base.ahead (size + 2 * fields.length) rest) := by
  induction fields generalizing size with
  | nil => exact .nothing (blockPair?_end base size rest _)
  | cons field fields ih =>
    refine .next (blockPair?_word base size _ depth field.1 field.2) ?_
    have hsize : size + 1 + 1 + 2 * fields.length = size + 2 * (fields.length + 1) := by omega
    rw [List.length_cons, ← hsize]
    exact ih (size + 1 + 1)

theorem length_le_flatMap {α : Type} (tokens : α → List Token) (htokens : ∀ a, tokens a ≠ []) (things : List α) :
    things.length ≤ (things.flatMap tokens).length := by
  induction things with
  | nil => exact Nat.le_refl _
  | cons a things ih =>
    have hpos := List.length_pos_iff.mpr (htokens a)
    rw [List.flatMap_cons, List.length_append, List.length_cons]
    omega

theorem blockEntries_fields (depth : Nat) (base : Reading) (size : Nat) (fields : List (String × String))
    (rest : List Token) :
    blockEntries (node depth true true) (base.ahead size (fields.flatMap fieldTokens ++ .blockEnd :: rest)) =
      some (fields.map fieldNode, base.ahead (size + 2 * fields.length) rest) := by
  rw [blockEntries_eq]
  refine (finds_fields depth base size fields rest).untilNone_eq ?_
  have hlength := length_le_flatMap fieldTokens (fun _ => List.cons_ne_nil _ _) fields
  simp only [Reading.ahead, List.length_map, List.length_append]
  omega

/-- The entries of a record are found in their order. -/
theorem finds_entries (depth : Nat) (base : Reading) (size : Nat) (entries : List Entry) (rest : List Token) :
    ∃ after, Finds (blockPair? (node (depth + 1) true true))
    (base.ahead size (entries.flatMap Entry.tokens ++ .blockEnd :: rest)) (entries.map entryNode)
    (base.ahead after rest) := by
  induction entries generalizing size with
  | nil => exact ⟨size, .nothing (blockPair?_end base size rest _)⟩
  | cons entry entries ih =>
    cases entry with
    | field pair =>
      obtain ⟨after, hrest⟩ := ih (size + 1 + 1)
      exact ⟨after, .next (blockPair?_word base size _ (depth + 1) pair.1 pair.2) hrest⟩
    | block key first more =>
      obtain ⟨after, hrest⟩ := ih (size + 1 + 2 + 2 * (first :: more).length)
      have hfields :=
        blockEntries_fields depth base (size + 1 + 2) (first :: more)
        (entries.flatMap Entry.tokens ++ .blockEnd :: rest)
      have htokens : (Entry.block key first more :: entries).flatMap Entry.tokens ++ .blockEnd :: rest =
          .key :: .scalar true key :: .value :: .blockMappingStart ::
            ((first :: more).flatMap fieldTokens ++ .blockEnd ::
            (entries.flatMap Entry.tokens ++ .blockEnd :: rest)) := by
        simp [Entry.tokens]
      rw [htokens]
      exact ⟨after, .next (blockPair?_block base size _ depth key hfields) hrest⟩

theorem node_entries (depth : Nat) (base : Reading) (size : Nat) (entries : List Entry) (rest : List Token) :
    ∃ after, node (depth + 2) true false
    (base.ahead size (.blockMappingStart :: (entries.flatMap Entry.tokens ++ .blockEnd :: rest))) =
    some (.mapping none (entries.map entryNode), base.ahead after rest) := by
  obtain ⟨after, hfinds⟩ := finds_entries depth base (size + 2) entries rest
  have hlength := length_le_flatMap Entry.tokens (fun entry => by cases entry <;> exact List.cons_ne_nil _ _) entries
  refine ⟨after, ?_⟩
  rw [node_mapping, blockEntries_eq, hfinds.untilNone_eq]
  · rfl
  · simp only [Reading.ahead, List.length_map, List.length_append]
    omega

/-! ### Documents -/

/-- The reading before the root of a document without directives. -/
def startOfDocument : Reading := { tokens := [], stems := [("!", [33]), ("!!", "tag:yaml.org,2002:".toUTF8.toList)] }

theorem directives_start (rest : List Token) :
    directives { tokens := .blockMappingStart :: rest } =
    some ((), startOfDocument.ahead 0 (.blockMappingStart :: rest)) := rfl

theorem document_mapping {depth size : Nat} {rest : List Token} {root : Node}
    (h : node depth true false (startOfDocument.ahead 0 (.blockMappingStart :: rest)) =
    some (root, startOfDocument.ahead size [])) :
    document depth { tokens := .blockMappingStart :: rest } = some (some root, startOfDocument.ahead size []) := by
  rw [document]
  simp [peek, bind, StateT.bind, get, getThe, MonadStateOf.get, StateT.get, pure, StateT.pure, directives_start,
    takeIf_ahead, guard, h]
  rfl

end NodeReader

theorem ofTokens?_entries (depth : Nat) (entries : List Entry) : ∃ tree, Tree.ofTokens? (depth + 2)
    (.blockMappingStart :: (entries.flatMap Entry.tokens ++ [.blockEnd])) = some tree ∧
      tree.root = some (.mapping none (entries.map entryNode)) := by
  obtain ⟨after, hnode⟩ := NodeReader.node_entries depth NodeReader.startOfDocument 0 entries []
  rw [Tree.ofTokens?, NodeReader.document_mapping hnode]
  exact ⟨_, rfl, rfl⟩

/-! ## Values -/

/-- Fields under their names. -/
def named (fields : List (String × Document)) : List (Document × Document) :=
  fields.map fun field => (.text field.1, field.2)

@[simp]
theorem named_cons (field : String × Document) (fields : List (String × Document)) :
    named (field :: fields) = (.text field.1, field.2) :: named fields := rfl

/-- An entry has a name and a value, and no aliases. -/
structure Says (tree : Tree) (depth : Nat) (entry : Node × Node) (field : String × Document) : Prop where
  name : ∀ left, entry.1.value tree depth false left = some (.text field.1, left)
  value : ∀ left, entry.2.value tree depth false left = some (field.2, left)

theorem value_word (tree : Tree) (depth : Nat) {value : Document} (h : plainValue? text = some value) (left : Nat) :
    (Node.scalar none true text).value tree depth false left = some (value, left) := by
  cases depth
  all_goals
    delta Node.value
    show ((plainValue? text).bind fun value => some (value, left)).bind (fun read => some (read.1, read.2)) = _
    rw [h]
    rfl

/-- One more entry of a mapping, if its key is new. -/
def readEntry (tree : Tree) (depth : Nat) (fields : List (Document × Document)) (entry : Node × Node) :
    ValueReader (List (Document × Document)) := do
  let key ← Node.value tree depth false entry.1
  guard (!fields.any fun (field : Document × Document) => field.1.same key)
  return (key, ← Node.value tree depth false entry.2) :: fields

theorem value_mapping_eq (tree : Tree) (depth : Nat) (entries : List (Node × Node)) (left : Nat) :
    (Node.mapping none entries).value tree (depth + 1) false left =
      (entries.foldlM (readEntry tree depth) [] left).map fun (fields, left) => (.record fields.reverse, left) := by
  rw [Option.map_eq_bind]
  delta readEntry Node.value
  rfl

section

variable {α : Type} {tree : Tree} {depth : Nat} {entry : α → Node × Node} {field : α → String × Document}

theorem foldlM_readEntry {things : List α} (hsaid : ∀ a ∈ things, Says tree depth (entry a) (field a))
    (hnames : (things.map fun a => (field a).1).Nodup) (before : List (String × Document))
    (hbefore : ∀ a ∈ things, ∀ other ∈ before, other.1 ≠ (field a).1) (left : Nat) :
    (things.map entry).foldlM (readEntry tree depth) (named before) left =
      some (named ((things.map field).reverse ++ before), left) := by
  induction things generalizing before with
  | nil => rfl
  | cons a things ih =>
    have hfirst := hsaid a List.mem_cons_self
    have hstep : readEntry tree depth (named before) (entry a) left = some (named (field a :: before), left) := by
      have hfresh : (named before).any (fun other => other.1.same (.text (field a).1)) = false := by
        rw [named, List.any_map, List.any_eq_false]
        intro other hother
        simpa [Document.same] using hbefore a List.mem_cons_self other hother
      simp [readEntry, bind, StateT.bind, hfirst.name, hfirst.value, hfresh, guard, pure, StateT.pure]
    obtain ⟨hnew, hnames⟩ := List.nodup_cons.mp hnames
    rw [List.map_cons, List.foldlM_cons]
    show Option.bind _ _ = _
    rw [hstep]
    refine (ih (fun b hb => hsaid b (List.mem_cons_of_mem a hb)) hnames (field a :: before) ?_).trans ?_
    · rintro b hb other (_ | ⟨_, hother⟩)
      · exact fun h => hnew (List.mem_map.mpr ⟨b, hb, h.symm⟩)
      · exact hbefore b (List.mem_cons_of_mem a hb) other hother
    · simp

theorem value_mapping {things : List α} (hsaid : ∀ a ∈ things, Says tree depth (entry a) (field a))
    (hnames : (things.map fun a => (field a).1).Nodup) (left : Nat) :
    (Node.mapping none (things.map entry)).value tree (depth + 1) false left =
    some (.record (named (things.map field)), left) := by
  rw [value_mapping_eq]
  have hfold := foldlM_readEntry hsaid hnames [] (by simp) left
  rw [named, List.map_nil] at hfold
  rw [hfold]
  simp [named]

end

/-! ## Documents -/

/-- What a field says, if its key is no number and none of the words that stand for a value. -/
def fieldValue (field : String × String) : String × Document := (field.1, (plainValue? field.2).getD .null)

/-- The value of an entry under its name. -/
def entryValue : Entry → String × Document
  | .field pair => fieldValue pair
  | .block key first more => (key, .record (named ((first :: more).map fieldValue)))

/-- A field whose name is a text and whose value is plain. -/
structure IsNamed (field : String × String) : Prop where
  name : plainValue? field.1 = some (.text field.1)
  value : (plainValue? field.2).isSome = true

inductive Entry.IsNamed : Entry → Prop where
  | field {pair : String × String} (isNamed : Yaml.IsNamed pair) : IsNamed (.field pair)
  | block {key : String} {first : String × String} {more : List (String × String)}
      (name : plainValue? key = some (.text key)) (isNamed : ∀ field ∈ first :: more, Yaml.IsNamed field)
      (distinct : ((first :: more).map (·.1)).Nodup) :
    IsNamed (.block key first more)

theorem says_fieldNode {field : String × String} (h : IsNamed field) (tree : Tree) (depth : Nat) :
    Says tree depth (fieldNode field) (fieldValue field) where
  name := value_word tree depth h.name
  value := by
    obtain ⟨value, hvalue⟩ := Option.isSome_iff_exists.mp h.value
    rw [fieldValue, hvalue]
    exact value_word tree depth hvalue

theorem says_entryNode {entry : Entry} (h : entry.IsNamed) (tree : Tree) (depth : Nat) :
    Says tree (depth + 1) (entryNode entry) (entryValue entry) := by
  cases h with
  | field isNamed => exact says_fieldNode isNamed tree (depth + 1)
  | block name isNamed distinct =>
    refine ⟨value_word tree (depth + 1) name,
      value_mapping (fun field hfield => says_fieldNode (isNamed field hfield) tree depth) ?_⟩
    exact distinct

/-- A text that is laid out as lines of words is read as the record that the lines say. -/
theorem document?_entries {entry : Entry} {entries : List Entry}
    (htext : text.toList = entriesText (entry :: entries)) (hproper : ∀ other ∈ entry :: entries, other.Proper)
    (hnamed : ∀ other ∈ entry :: entries, other.IsNamed)
    (hdistinct : ((entry :: entries).map fun other => (entryValue other).1).Nodup) :
    document? text = some (.record (named ((entry :: entries).map entryValue))) := by
  rw [document?, tokens?_entries htext hproper]
  obtain ⟨tree, htree, hroot⟩ := ofTokens?_entries 126 (entry :: entries)
  have hsaid : ∀ other ∈ entry :: entries, Says tree 127 (entryNode other) (entryValue other) :=
    fun other hother => says_entryNode (hnamed other hother) tree 126
  have hvalue := value_mapping hsaid hdistinct (100 * tree.size)
  show (Tree.ofTokens? (126 + 2) _).bind _ = _
  rw [htree, Option.bind_some, hroot]
  exact congrArg (Option.bind · fun read => some read.1) hvalue

/-! ## Words -/

theorem contains_eq_false (p : Char → Bool) (h : text.toList = c :: cs) (hc : p c = true)
    {words : List String} (hwords : ∀ word ∈ words, word.toList.head?.all (!p ·) = true) : words.contains text =
    false := by
  refine Bool.eq_false_iff.mpr fun hmem => ?_
  have hhead := hwords text (List.contains_iff_mem.mp hmem)
  rw [h] at hhead
  simp [hc] at hhead

def startsNumber (c : Char) : Bool := c.isDigit || c == '-'

theorem plainValue?_number (h : text.toList = c :: cs) (hc : startsNumber c = true)
    {n : Int} (hn : integer? text.toList = some (n, true)) : plainValue? text = some (.int n) := by
  have hempty : text.isEmpty = false := by
    rw [← Bool.not_eq_true, String.isEmpty_iff]
    rintro rfl
    cases h
  have hnull : isNullWord text = false := contains_eq_false startsNumber h hc (by decide)
  have hflag : flagWord? text = none := by
    rw [flagWord?, contains_eq_false startsNumber h hc (by decide), contains_eq_false startsNumber h hc (by decide)]
    rfl
  simp [plainValue?, hempty, hnull, hflag, hn]

theorem natural?_toString (n : Nat) : natural? (toString n).toList = some n := by
  obtain ⟨c, cs, hcs, hdigit, hzero⟩ := Text.exists_toString_eq_cons n
  by_cases h : c = '0'
  · rw [hzero h]
    decide
  · have hdigits := Text.digits?_toString n
    rw [hcs] at hdigits ⊢
    rw [natural?.eq_def]
    have hpadded : isPadded (c :: cs) = false := by
      rw [isPadded.eq_def]
      split <;> simp_all
    split <;> simp_all

theorem plainValue?_toString {n : Int} (hmin : Text.minInt64 ≤ n) (hmax : n < 18446744073709551616) :
    plainValue? (toString n) = some (.int n) := by
  rw [Text.minInt64] at hmin
  cases n with
  | ofNat n =>
    obtain ⟨c, cs, hcs, hdigit, -⟩ := Text.exists_toString_eq_cons n
    have htext : (toString (Int.ofNat n)).toList = (toString n).toList := rfl
    refine plainValue?_number (htext.trans hcs) (by rw [startsNumber, hdigit, Bool.true_or]) ?_
    have hnatural := natural?_toString n
    have hfits : n < 18446744073709551616 := by
      change (n : Int) < 18446744073709551616 at hmax
      omega
    have hlarge : n < 340282366920938463463374607431768211456 := by omega
    rw [htext, hcs] at *
    rw [integer?.eq_def]
    split <;> simp_all
  | negSucc n =>
    have htext := Text.toString_negSucc n
    refine plainValue?_number htext (by decide) ?_
    have hleast : n + 1 ≤ 9223372036854775808 := by omega
    have hmost : n + 1 ≤ 170141183460469231731687303715884105728 := by omega
    rw [htext, integer?]
    simp only [natural?_toString, hmost, hleast, if_true, decide_true]
    rfl

theorem not_startsNumber (hc : c.isAlpha = true) : c.isDigit = false ∧ c ≠ '-' ∧ c ≠ '+' := by
  refine ⟨?_, ?_, ?_⟩
  · rw [Bool.eq_false_iff]
    intro hdigit
    simp [Char.isAlpha, Char.isUpper, Char.isLower, UInt32.le_iff_toNat_le] at hc
    simp [Char.isDigit, UInt32.le_iff_toNat_le] at hdigit
    omega
  all_goals
    rintro rfl
    revert hc
    decide

theorem digits?_letter (hc : c.isAlpha = true) (cs : List Char) : Text.digits? (c :: cs) = none := by
  simp [Text.digits?, (not_startsNumber hc).1]

theorem unsigned?_letter (hc : c.isAlpha = true)
    (hword : String.ofList ((c :: cs).map Char.toLower) ∉ ["inf", "infinity", "nan"]) : Double.unsigned? (c :: cs) =
    none := by
  simp only [List.mem_cons, List.not_mem_nil, or_false, not_or] at hword
  obtain ⟨hinf, hinfinity, hnan⟩ := hword
  have hdigits : ∀ number : List Char, (number = [] ∨ ∃ rest, number = c :: rest) →
      Text.digits? (number.takeWhile (· != '.') ++ (number.dropWhile (· != '.')).drop 1) = none := by
    have hpoint : (c != '.') = true := by
      rw [bne_iff_ne]
      rintro rfl
      revert hc
      decide
    rintro number (rfl | ⟨rest, rfl⟩)
    · rfl
    · rw [List.takeWhile_cons, if_pos hpoint, List.cons_append, digits?_letter hc]
  rw [Double.unsigned?, if_neg (not_or.mpr ⟨hinf, hinfinity⟩), if_neg hnan]
  have hnumber : ∀ p : Char → Bool, (c :: cs).takeWhile p = [] ∨ ∃ rest, (c :: cs).takeWhile p = c :: rest := by
    intro p
    rw [List.takeWhile_cons]
    split
    · exact .inr ⟨_, rfl⟩
    · exact .inl rfl
  simp only [hdigits _ (hnumber _)]
  split <;> simp

theorem integer?_letter (hc : c.isAlpha = true) (cs : List Char) : integer? (c :: cs) = none := by
  obtain ⟨hdigit, hminus, hplus⟩ := not_startsNumber hc
  have hzero : c ≠ '0' := by
    rintro rfl
    cases hdigit
  have hnatural : natural? (c :: cs) = none := by
    have hdigits := digits?_letter hc cs
    rw [natural?.eq_def]
    split <;> simp_all
  rw [integer?.eq_def]
  split <;> simp_all

/-- A text that begins with a letter and is none of the words that stand for a value. -/
def isLabel (text : String) : Bool :=
  text.toList.head?.any Char.isAlpha && !isNullWord text && (flagWord? text).isNone
    && !(["inf", "infinity", "nan"].contains (String.ofList (text.toList.map Char.toLower)))

/-- A label is read as a text. -/
theorem plainValue?_label (hlabel : isLabel text = true) : plainValue? text = some (.text text) := by
  simp only [isLabel, Bool.and_eq_true, Option.any_eq_true, Bool.not_eq_true', Option.isNone_iff_eq_none] at hlabel
  obtain ⟨⟨⟨⟨c, hhead, hc⟩, hnull⟩, hflag⟩, hreal⟩ := hlabel
  obtain ⟨cs, h⟩ := List.head?_eq_some_iff.mp hhead
  obtain ⟨-, hminus, hplus⟩ := not_startsNumber hc
  have hempty : text.isEmpty = false := by
    rw [← Bool.not_eq_true, String.isEmpty_iff]
    rintro rfl
    cases h
  have hinteger : integer? text.toList = none := h ▸ integer?_letter hc cs
  have hnumber : real? text = none := by
    have hread : Double.read? text = none := by
      have hwords : String.ofList ((c :: cs).map Char.toLower) ∉ ["inf", "infinity", "nan"] := by simpa [h] using hreal
      have hunsigned := unsigned?_letter hc hwords
      rw [Double.read?, h]
      split <;> simp_all
    have htext : String.ofList (c :: cs) = text := by rw [← h, String.ofList_toList]
    have hwords : ∀ words : List String, (∀ word ∈ words, word.toList.head?.all (!Char.isAlpha ·) = true) →
        words.contains text = false :=
      fun words => contains_eq_false Char.isAlpha h hc
    have hinf := hwords [".inf", ".Inf", ".INF"] (by decide)
    have hminusInf := hwords ["-.inf", "-.Inf", "-.INF"] (by decide)
    have hnan := hwords [".nan", ".NaN", ".NAN"] (by decide)
    rw [real?, h]
    split
    · simp_all
    · simp only [htext, hinf, hminusInf, hnan, hread]
      simp [hminus, hplus]
  simp [plainValue?, hempty, hnull, hflag, hinteger, hnumber]

theorem isWord_digits {digits : List Char} (hempty : digits ≠ []) (hdigits : ∀ c ∈ digits, c.isDigit = true) :
    isWord digits = true ∧ isWord ('-' :: digits) = true := by
  have hword : ∀ c ∈ digits, isWordChar c = true := fun c hc => by simp [isWordChar, Char.isAlphanum, hdigits c hc]
  have hall : (!digits.isEmpty && digits.all isWordChar) = true := by simpa [hempty] using hword
  refine ⟨?_, hall⟩
  unfold isWord
  split
  · exact absurd (hword '-' List.mem_cons_self) (by decide)
  · exact hall

theorem isWord_toString (n : Int) : isWord (toString n).toList = true := by
  cases n with
  | ofNat n => exact (isWord_digits (by simp) (Text.isDigit_of_mem_toString (n := n))).1
  | negSucc n =>
    rw [Text.toString_negSucc]
    exact (isWord_digits (by simp) Text.isDigit_of_mem_toString).2

end ApexPaths.Yaml
