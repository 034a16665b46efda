import ApexPaths.Proofs.Program.Spelling
import ApexPaths.Proofs.Walk.Naming

/-!
Paths that are merged for what they return. The key of a path tells the type and the text of the literal it returns, or
the name of the variable in lower case, and neither how the variable is addressed nor where it is declared. So literals
are merged exactly if they are the same; variables are merged if only their names are, and they are the same variable
where they are addressed alike, too, and no local variable stands between them.
-/

namespace ApexPaths
set_option autoImplicit false

open Source List Program

/-! ## Keys -/

namespace CodeGraph

/-- The key of a returned value. -/
def valueKey? (graph : CodeGraph) (value : VertexId) : Option String :=
  match graph.labelOf value with
  | .literalExpression => some ("lit:" ++ graph.literalTag value ++ ":" ++ graph.literalText value)
  | .variableExpression => (graph.name? value).map fun name => "var:" ++ Text.lower name
  | _ => none

/-- Two literals of one type with one text. -/
structure SameLiteral (graph : CodeGraph) (u v : VertexId) : Prop where
  first : graph.is u .literalExpression = true
  second : graph.is v .literalExpression = true
  tag : graph.literalTag u = graph.literalTag v
  text : graph.literalText u = graph.literalText v

/-- Two variable expressions with one name in lower case. -/
structure SameName (graph : CodeGraph) (u v : VertexId) : Prop where
  first : graph.is u .variableExpression = true
  second : graph.is v .variableExpression = true
  name : ∃ name name', graph.name? u = some name ∧ graph.name? v = some name' ∧ Text.lower name = Text.lower name'

variable {graph : CodeGraph}

theorem valueKey?_eq_some_iff {value : VertexId} {key : String} : graph.valueKey? value = some key ↔
    (graph.is value .literalExpression = true ∧ "lit:" ++ graph.literalTag value ++ ":" ++
    graph.literalText value = key) ∨
      (graph.is value .variableExpression = true ∧ ∃ name, graph.name? value = some name ∧
      "var:" ++ Text.lower name = key) := by
  constructor
  · intro h
    rw [valueKey?] at h
    split at h
    · exact .inl ⟨is_of_labelOf ‹_› (by decide), Option.some.inj h⟩
    · exact .inr ⟨is_of_labelOf ‹_› (by decide), Option.map_eq_some_iff.mp h⟩
    · cases h
  · rintro (⟨hlabel, rfl⟩ | ⟨hlabel, name, hname, rfl⟩)
    · rw [valueKey?, labelOf_eq (graph.is_iff.mp hlabel)]
    · rw [valueKey?, labelOf_eq (graph.is_iff.mp hlabel)]
      simp only [hname, Option.map_some]

theorem literalKey_inj {tag tag' : String} (h : tag ∈ Tree.literalTags) (h' : tag' ∈ Tree.literalTags)
    {text text' : String} (hkey : "lit:" ++ tag ++ ":" ++ text = "lit:" ++ tag' ++ ":" ++ text') : tag = tag' ∧
    text = text' := by
  have hchars : tag.toList ++ ':' :: text.toList = tag'.toList ++ ':' :: text'.toList := by
    simpa using congrArg String.toList hkey
  have hstart : ∀ tag ∈ Tree.literalTags, ∀ rest, (tag.toList ++ ':' :: rest).takeWhile (· != ':') = tag.toList := by
    intro tag htag rest
    have hplain : ∀ tag ∈ Tree.literalTags, ∀ c ∈ tag.toList, (c != ':') = true := by
      simp [Tree.literalTags, Reserved.literalString, Reserved.literalInteger, Reserved.literalLong,
        Reserved.literalDecimal, Reserved.literalTrue, Reserved.literalFalse, Reserved.literalNull]
    rw [takeWhile_append_of_pos (hplain tag htag), takeWhile_cons_of_neg (by simp), append_nil]
  have htag : tag = tag' := by
    have hsame := congrArg (List.takeWhile (· != ':')) hchars
    rw [hstart tag h, hstart tag' h'] at hsame
    exact String.toList_inj.mp hsame
  subst htag
  exact ⟨rfl, String.toList_inj.mp (List.cons.inj (append_cancel_left hchars)).2⟩

/-- Keys are equal for the same literal and the same name only. -/
theorem valueKey?_eq_iff (truth : graph.TellsTruth) {u v : VertexId} :
    (∃ key, graph.valueKey? u = some key ∧ graph.valueKey? v = some key) ↔ graph.SameLiteral u v ∨
    graph.SameName u v := by
  have happart : ∀ text text' : String, "lit:" ++ text ≠ "var:" ++ text' := by
    intro text text' h
    have := congrArg String.toList h
    simp at this
  constructor
  · rintro ⟨key, hfirst, hsecond⟩
    rcases valueKey?_eq_some_iff.mp hfirst with ⟨hu, rfl⟩ | ⟨hu, name, hname, rfl⟩ <;>
      rcases valueKey?_eq_some_iff.mp hsecond with ⟨hv, hkey⟩ | ⟨hv, name', hname', hkey⟩
    · obtain ⟨htag, htext⟩ := literalKey_inj (truth.tag hv) (truth.tag hu) hkey
      exact .inl ⟨hu, hv, htag.symm, htext.symm⟩
    · rw [String.append_assoc, String.append_assoc] at hkey
      exact absurd hkey.symm (happart _ _)
    · rw [String.append_assoc, String.append_assoc] at hkey
      exact absurd hkey (happart _ _)
    · exact .inr ⟨hu, hv, name, name', hname, hname', (String.append_right_inj "var:").mp hkey.symm⟩
  · rintro (h | h)
    · exact ⟨_, valueKey?_eq_some_iff.mpr (.inl ⟨h.first, rfl⟩),
        valueKey?_eq_some_iff.mpr (.inl ⟨h.second, by rw [h.tag, h.text]⟩)⟩
    · obtain ⟨name, name', hname, hname', hlower⟩ := h.name
      exact ⟨_, valueKey?_eq_some_iff.mpr (.inr ⟨h.first, name, hname, rfl⟩),
        valueKey?_eq_some_iff.mpr (.inr ⟨h.second, name', hname', by rw [hlower]⟩)⟩

end CodeGraph

/-! ## What paths return -/

/-- The expression of the return statement that a path ends with. -/
def returned? (graph : CodeGraph) (path : CodePath) : Option VertexId :=
  path.last?.bind fun last => if graph.is last .returnStatement then graph.childAt? last 0 else none

theorem returnKey?_eq (graph : CodeGraph) (path : CodePath) :
    returnKey? graph path = (returned? graph path).bind graph.valueKey? := by
  rw [returnKey?, returned?, Option.bind_assoc]
  refine congrArg _ (funext fun last => ?_)
  cases graph.is last .returnStatement with
  | false => rfl
  | true => rfl

theorem exists_returnKey?_iff {graph : CodeGraph} (truth : graph.TellsTruth) {p q : CodePath} :
    (∃ key, returnKey? graph p = some key ∧ returnKey? graph q = some key) ↔
      ∃ u v, returned? graph p = some u ∧ returned? graph q = some v ∧
      (graph.SameLiteral u v ∨ graph.SameName u v) := by
  simp only [returnKey?_eq, Option.bind_eq_some_iff]
  constructor
  · rintro ⟨key, ⟨u, hu, hkey⟩, v, hv, hkey'⟩
    exact ⟨u, v, hu, hv, (CodeGraph.valueKey?_eq_iff truth).mp ⟨key, hkey, hkey'⟩⟩
  · rintro ⟨u, v, hu, hv, hsame⟩
    obtain ⟨key, hkey, hkey'⟩ := (CodeGraph.valueKey?_eq_iff truth).mpr hsame
    exact ⟨key, ⟨u, hu, hkey⟩, v, hv, hkey'⟩

section
variable {settings : Settings} {sources : List (String × String)} {graph : CodeGraph}
    (h : Build.IsGraphOf settings sources graph) {method : VertexId} {paths : List CodePath}
    (hforward : Path.forward graph method = .ok paths)
include h hforward

theorem below_of_returned? {path : CodePath} (hpath : path ∈ paths) {value : VertexId}
    (hvalue : returned? graph path = some value) : ∃ body ∈ graph.children method,
    graph.label? body = some .blockStatement ∧ graph.Below body value := by
  have forest := h.wellPlaced.forest
  obtain ⟨body, hbody, route⟩ := h.isBuilt.route h.wellPlaced hforward hpath
  obtain ⟨hchild, hblock⟩ := CodeGraph.mem_children_of_body? hbody
  obtain ⟨last, hlast, hreturn⟩ := Option.bind_eq_some_iff.mp hvalue
  split at hreturn
  · obtain ⟨vertex, hvertex, rfl⟩ := Option.map_eq_some_iff.mp hlast
    have hmem : vertex.id ∈ path.ids := mem_map_of_mem (mem_of_getLast? hvertex)
    have hin := mem_of_getElem? hreturn
    exact ⟨body, hchild, hblock, .trans forest (route.below _ hmem)
      (.of_child forest hin (.refl (CodeGraph.lt_of_parent? (forest.parent_of_mem hin))))⟩
  · cases hreturn

theorem beside_of_returned? {p q : CodePath} (hp : p ∈ paths) (hq : q ∈ paths) {u v : VertexId}
    (hu : returned? graph p = some u) (hv : returned? graph q = some v) : (ofGraph graph).Beside u v := by
  have forest := h.wellPlaced.forest
  have bound := h.wellBound
  have hmethod := Path.isMethod_of_forward hforward
  obtain ⟨body, hbody, hblock, hbelow⟩ := below_of_returned? h hforward hp hu
  obtain ⟨body', hbody', hblock', hbelow'⟩ := below_of_returned? h hforward hq hv
  have hgraph : (ofGraph graph).graph = graph := rfl
  constructor
  · rw [hgraph, CodeGraph.enclosingMethod?_of_below forest bound.kinds bound.declared hmethod hbody hblock hbelow,
      CodeGraph.enclosingMethod?_of_below forest bound.kinds bound.declared hmethod hbody' hblock' hbelow']
  · rw [hgraph, CodeGraph.enclosingType?_of_below forest bound.kinds bound.declared hbody hblock hbelow,
      CodeGraph.enclosingType?_of_below forest bound.kinds bound.declared hbody' hblock' hbelow']

/-- Two forward paths of a method have one key exactly if they return the same literal or variables of one name.
The variables are the same if they are spelled alike with what they are addressed by, and no local variable stands
between them. -/
theorem returnKey?_merges {p q : CodePath} (hp : p ∈ paths) (hq : q ∈ paths) :
    ((∃ key, returnKey? graph p = some key ∧ returnKey? graph q = some key) ↔
      ∃ u v, returned? graph p = some u ∧ returned? graph q = some v ∧ (graph.SameLiteral u v ∨ graph.SameName u v)) ∧
    ∀ u v, returned? graph p = some u → returned? graph q = some v → (Program.ofGraph graph).SpelledAlike u v →
      (Program.ofGraph graph).Unshadowed u v →
      (Program.ofGraph graph).expressionBinding? u = (Program.ofGraph graph).expressionBinding? v := by
  refine ⟨exists_returnKey?_iff h.tellsTruth, fun u v hu hv halike unshadowed => ?_⟩
  exact halike.expressionBinding?_eq (beside_of_returned? h hforward hp hq hu hv) unshadowed

end

/-! ## Two spellings and two owners -/

/-- A method has two paths, and what they return passes a test. -/
def returnsTwo (test : Program → VertexId → VertexId → Bool) (graph : CodeGraph) (method : VertexId) : Bool :=
  match Path.forward graph method with
  | .ok [p, q] => (returned? graph p).any fun u => (returned? graph q).any (test (.ofGraph graph) u)
  | _ => false

theorem exists_returns (text : String) (test : Program → VertexId → VertexId → Bool)
    (h : (Build.treeOfChars text.toList).toOption.any (anyMethod (returnsTwo test)) = true) :
    ∃ graph method p q u v, Build.IsGraphOf bareSettings [("A", text)] graph ∧ Path.forward graph method = .ok [p, q] ∧
      returned? graph p = some u ∧ returned? graph q = some v ∧ test (.ofGraph graph) u v = true := by
  obtain ⟨graph, method, hgraph, -, htest⟩ := exists_graph h
  rw [returnsTwo] at htest
  split at htest
  · obtain ⟨u, hu, htest⟩ := (Option.any_eq_true _ _).mp htest
    obtain ⟨v, hv, htest⟩ := (Option.any_eq_true _ _).mp htest
    exact ⟨graph, method, _, _, u, v, hgraph, ‹_›, hu, hv, htest⟩
  · cases htest

def areNamed (graph : CodeGraph) (u v : VertexId) (name name' : String) : Bool :=
  graph.is u .variableExpression && graph.is v .variableExpression && graph.name? u == some name &&
  graph.name? v == some name'

theorem areNamed_iff {graph : CodeGraph} {u v : VertexId} {name name' : String} : areNamed graph u v name name' = true ↔
    ((graph.is u .variableExpression = true ∧ graph.is v .variableExpression = true) ∧ graph.name? u = some name) ∧
      graph.name? v = some name' := by
  simp only [areNamed, Bool.and_eq_true, beq_iff_eq]

/-- A method that returns one static field in two spellings. -/
def twoSpellings : String :=
  "class A { static Integer x; static Integer m(Boolean b) { if (b) { return x; } return X; } }"

/-- The two references are unqualified, have two spellings of one name, and see the same local variable of it, or
none. -/
def spellsTwice (program : Program) (u v : VertexId) : Bool :=
  areNamed program.graph u v "x" "X" && (program.expressionBinding? u).isSome &&
    (program.address u == .plain && program.address v == .plain) &&
    (program.graph.enclosingMethod? u).all fun method => program.localBinding? method "x" u ==
    program.localBinding? method "x" v

/-- Two spellings of one field have equal keys and one binding. -/
theorem twoSpellings_merged : ∃ graph method p q u v, Build.IsGraphOf bareSettings [("A", twoSpellings)] graph ∧
    Path.forward graph method = .ok [p, q] ∧ returned? graph p = some u ∧ returned? graph q = some v ∧
    (Program.ofGraph graph).SpelledAlike u v ∧ (Program.ofGraph graph).Unshadowed u v ∧
    (∃ key, returnKey? graph p = some key ∧ returnKey? graph q = some key) ∧
    ((Program.ofGraph graph).expressionBinding? u).isSome = true ∧
    (Program.ofGraph graph).expressionBinding? u = (Program.ofGraph graph).expressionBinding? v := by
  obtain ⟨graph, method, p, q, u, v, hgraph, hforward, hu, hv, htest⟩ := exists_returns twoSpellings spellsTwice
    (Build.any_of_toList_eq String.toList_ofList (by decide +kernel))
  obtain ⟨⟨⟨hnamed, hbound⟩, hplain⟩, hlocal⟩ : ((_ ∧ _) ∧ _) ∧ _ := by
    simpa only [spellsTwice, Bool.and_eq_true] using htest
  obtain ⟨haddress, haddress'⟩ : (ofGraph graph).address u = .plain ∧
    (ofGraph graph).address v = .plain := by
    simpa only [beq_iff_eq] using hplain
  obtain ⟨⟨⟨hfirst, hsecond⟩, hname⟩, hname'⟩ := areNamed_iff.mp hnamed
  have hfolded : Text.folded "x" = Text.folded "X" := by decide
  have halike : (ofGraph graph).SpelledAlike u v :=
    ⟨⟨"x", "X", hname, hname', hfolded⟩, by rw [haddress, haddress']; exact .plain⟩
  have hunshadowed : (ofGraph graph).Unshadowed u v := by
    intro name hmem leading hleading method hmethod
    cases hname.symm.trans hmem
    rw [haddress] at hleading
    cases hleading
    rw [Option.mem_def.mp hmethod, Option.all_some] at hlocal
    exact eq_of_beq hlocal
  obtain ⟨hkeys, hvariables⟩ :=
    returnKey?_merges hgraph hforward mem_cons_self (mem_cons_of_mem _ mem_cons_self)
  have hkey :=
    hkeys.mpr ⟨u, v, hu, hv, .inr ⟨hfirst, hsecond, "x", "X", hname, hname', Text.lower_eq_of_folded hfolded⟩⟩
  exact ⟨graph, method, p, q, u, v, hgraph, hforward, hu, hv, halike, hunshadowed, hkey, hbound,
    hvariables u v hu hv halike hunshadowed⟩

/-- A method that returns a field of one parameter or the same field of another one. -/
def twoOwners : String :=
  "class A { Integer v; static Integer m(Boolean b, A x, A y) { if (b) { return x.v; } return y.v; } }"

/-- The two references are of one name, and are addressed by two parameters. -/
def ownsTwice (program : Program) (u v : VertexId) : Bool :=
  areNamed program.graph u v "v" "v" && (program.address u == .dotted ["x"] && program.address v == .dotted ["y"])

/-- The fields of two objects are merged. -/
theorem twoOwners_merged : ∃ graph method p q u v key, Build.IsGraphOf bareSettings [("A", twoOwners)] graph ∧
    Path.forward graph method = .ok [p, q] ∧ returned? graph p = some u ∧ returned? graph q = some v ∧
    returnKey? graph p = some key ∧ returnKey? graph q = some key ∧
    ¬(graph.SameLiteral u v ∨ (Program.ofGraph graph).SpelledAlike u v ∧
      (Program.ofGraph graph).expressionBinding? u = (Program.ofGraph graph).expressionBinding? v) := by
  obtain ⟨graph, method, p, q, u, v, hgraph, hforward, hu, hv, htest⟩ := exists_returns twoOwners ownsTwice
    (Build.any_of_toList_eq String.toList_ofList (by decide +kernel))
  obtain ⟨hnamed, howners⟩ := Bool.and_eq_true_iff.mp htest
  obtain ⟨haddress, haddress'⟩ : (ofGraph graph).address u = .dotted ["x"] ∧
    (ofGraph graph).address v = .dotted ["y"] := by
    simpa only [Bool.and_eq_true, beq_iff_eq] using howners
  obtain ⟨⟨⟨hfirst, hsecond⟩, hname⟩, hname'⟩ := areNamed_iff.mp hnamed
  obtain ⟨key, hkey, hkey'⟩ := (exists_returnKey?_iff hgraph.tellsTruth).mpr
    ⟨u, v, hu, hv, .inr ⟨hfirst, hsecond, "v", "v", hname, hname', rfl⟩⟩
  refine ⟨graph, method, p, q, u, v, key, hgraph, hforward, hu, hv, hkey, hkey', ?_⟩
  rintro (hliteral | ⟨hspelled, -⟩)
  · exact absurd (graph.is_iff.mp hfirst) (by rw [graph.is_iff.mp hliteral.first]; decide)
  · have halike := hspelled.address
    rw [haddress, haddress'] at halike
    cases halike with
    | dotted hnames => exact absurd hnames (by decide)

end ApexPaths
