import ApexPaths.Proofs.Concrete.Data
import ApexPaths.Proofs.Walk.Instrument

/-!
Concrete executions of programs over integers and truth values, and frames that show their stores. An execution along a
path takes the branches that are recorded on it: a call with an attached path runs the callee along that path, and any
other call may return anything. Nothing is thrown.
-/

set_option autoImplicit false

namespace ApexPaths.Concrete

open List

/-! ## Stores -/

/-- The data of variables by their names in lower case. -/
abbrev Bindings := List (String × Datum)

namespace Bindings

def get? (bindings : Bindings) (name : String) : Option Datum := (bindings.find? (·.1 == Text.lower name)).map (·.2)

/-- Declaring a variable on both sides. -/
def declare (bindings : Bindings) (name : String) (datum : Datum) : Bindings := assign (Text.lower name) datum bindings

/-- Change a variable that is bound. -/
def set? (bindings : Bindings) (name : String) (datum : Datum) : Option Bindings :=
  (bindings.get? name).map fun _ => bindings.declare name datum

end Bindings

/-- A scope and the vertex that opens it. -/
structure Scope where
  opener : VertexId
  vars : Bindings := []

/-- The variables of a running method, and what it returned if it has. -/
structure Store where
  parameters : Bindings := []
  /-- The open scopes, innermost first. -/
  scopes : List Scope := []
  returned : Option Datum := none

namespace Store

def get? (store : Store) (name : String) : Option Datum :=
  (store.scopes.findSome? (·.vars.get? name)) <|> store.parameters.get? name

def declare (store : Store) (name : String) (datum : Datum) : Store :=
  match store.scopes with
  | [] => { store with parameters := store.parameters.declare name datum }
  | scope :: scopes => { store with scopes := { scope with vars := scope.vars.declare name datum } :: scopes }

/-- Give the innermost variable of a name another datum. -/
def setScopes? (name : String) (datum : Datum) : List Scope → Option (List Scope)
  | [] => none
  | scope :: scopes =>
    match scope.vars.set? name datum with
    | some vars => some ({ scope with vars } :: scopes)
    | none => (setScopes? name datum scopes).map (scope :: ·)

/-- Give the innermost variable of a name another datum. -/
def set? (store : Store) (name : String) (datum : Datum) : Option Store :=
  match setScopes? name datum store.scopes with
  | some scopes => some { store with scopes }
  | none => (store.parameters.set? name datum).map fun parameters => { store with parameters }

theorem exists_findSome?_of_setScopes? {name : String} {datum : Datum} {scopes after : List Scope}
    (h : setScopes? name datum scopes = some after) : ∃ old, scopes.findSome? (·.vars.get? name) = some old := by
  induction scopes generalizing after with
  | nil => cases h
  | cons scope scopes ih =>
    rw [List.findSome?_cons]
    rw [setScopes?, Bindings.set?] at h
    cases hfound : scope.vars.get? name with
    | some old => exact ⟨old, rfl⟩
    | none =>
      rw [hfound] at h
      obtain ⟨rest, hrest, -⟩ := Option.map_eq_some_iff.mp h
      exact ih hrest

/-- Only a bound variable is changed. -/
theorem exists_get?_of_set? {store after : Store} {name : String} {datum : Datum}
    (h : store.set? name datum = some after) : ∃ old, store.get? name = some old := by
  rw [get?]
  rw [set?] at h
  cases hfound : store.scopes.findSome? (·.vars.get? name) with
  | some old => exact ⟨old, rfl⟩
  | none =>
    cases hset : setScopes? name datum store.scopes with
    | some scopes =>
      obtain ⟨old, hold⟩ := exists_findSome?_of_setScopes? hset
      rw [hfound] at hold
      cases hold
    | none =>
      rw [hset] at h
      obtain ⟨parameters, hparameters, -⟩ := Option.map_eq_some_iff.mp h
      obtain ⟨old, hold, -⟩ := Option.map_eq_some_iff.mp hparameters
      exact ⟨old, hold⟩

/-- Of the open scopes those stay that enclose a vertex, and it may open one itself. -/
def reach (graph : CodeGraph) (v : VertexId) (store : Store) : Store :=
  let around := store.scopes.filter fun scope => (graph.line v).contains scope.opener
  { store with scopes := if graph.opens v then ⟨v, []⟩ :: around else around }

/-- Bind data to parameters in their order. -/
def bind (bound : Bindings) : List Parameter → List Datum → Bindings
  | parameter :: parameters, datum :: data => bind (bound.declare parameter.name datum) parameters data
  | _, _ => bound

/-- The store in which a method begins. -/
def entry (parameters : List Parameter) (data : List Datum) : Store := { parameters := bind [] parameters data }

end Store

/-! ## Executions -/

/-- A vertex that was passed, with the attached paths that are being run, and the store after it. -/
structure Passing where
  chain : Chain
  vertex : VertexId
  store : Store

/-- The datum of a literal; an integer is one of 32 bits. -/
def literalDatum? (tag text : String) : Option Datum :=
  if tag = Reserved.literalInteger then
    (Text.int64? text).bind fun n => if (BitVec.ofInt 32 n).toInt = n then some (.integer (BitVec.ofInt 32 n)) else none
  else if tag = Reserved.literalTrue then some (.boolean true)
  else if tag = Reserved.literalFalse then some (.boolean false)
  else if tag = Reserved.literalNull then some .null
  else none

section
variable (graph : CodeGraph)

mutual

/-- Beside a path an expression has a datum. The passings are those of the methods that are called for it, in order. -/
inductive Evaluates : CodePath → Chain → Store → VertexId → Datum → List Passing → Prop where
  | literal {path chain store expr datum} (label : graph.labelOf expr = .literalExpression)
    (read : literalDatum? (graph.literalTag expr) (graph.literalText expr) = some datum) :
    Evaluates path chain store expr datum []
  | name {path chain store expr name datum} (label : graph.labelOf expr = .variableExpression)
      (named : graph.name? expr = some name) (found : store.get? name = some datum) :
      Evaluates path chain store expr datum []
  | arithmetic {path chain store expr left right op x y z first second} (label : graph.labelOf expr = .binaryExpression)
    (left_eq : graph.childAt? expr 0 = some left) (right_eq : graph.childAt? expr 1 = some right)
    (operator : graph.text? expr (.fact .operator) = some op)
    (leftHas : Evaluates path chain store left (.integer x) first)
    (rightHas : Evaluates path chain store right (.integer y) second) (result : Datum.arithmetic? op x y = some z) :
    Evaluates path chain store expr (.integer z) (first ++ second)
  | comparison {path chain store expr left right op a b holds first second}
      (label : graph.labelOf expr = .booleanExpression) (left_eq : graph.childAt? expr 0 = some left)
      (right_eq : graph.childAt? expr 1 = some right)
    (operator : graph.text? expr (.fact .operator) = some op) (leftHas : Evaluates path chain store left a first)
    (rightHas : Evaluates path chain store right b second) (result : Datum.Compares op a b holds) :
    Evaluates path chain store expr (.boolean holds) (first ++ second)
  /-- The left side of `&&` or `||` decides; the right side is not evaluated. -/
  | decided {path chain store expr left right op decides passings} (label : graph.labelOf expr = .booleanExpression)
    (left_eq : graph.childAt? expr 0 = some left) (right_eq : graph.childAt? expr 1 = some right)
    (operator : graph.text? expr (.fact .operator) = some op) (deciding : Datum.deciding? op = some decides)
    (leftHas : Evaluates path chain store left (.boolean decides) passings) :
    Evaluates path chain store expr (.boolean decides) passings
  | undecided {path chain store expr left right op decides holds first second}
      (label : graph.labelOf expr = .booleanExpression) (left_eq : graph.childAt? expr 0 = some left)
      (right_eq : graph.childAt? expr 1 = some right)
    (operator : graph.text? expr (.fact .operator) = some op) (deciding : Datum.deciding? op = some decides)
    (leftHas : Evaluates path chain store left (.boolean !decides) first)
    (rightHas : Evaluates path chain store right (.boolean holds) second) :
    Evaluates path chain store expr (.boolean holds) (first ++ second)
  | not {path chain store expr operand holds passings} (label : graph.labelOf expr = .prefixExpression)
    (operand_eq : graph.childAt? expr 0 = some operand) (operator : graph.text? expr (.fact .operator) = some "!")
    (operandHas : Evaluates path chain store operand (.boolean holds) passings) :
    Evaluates path chain store expr (.boolean !holds) passings
  | minus {path chain store expr operand x passings} (label : graph.labelOf expr = .prefixExpression)
    (operand_eq : graph.childAt? expr 0 = some operand) (operator : graph.text? expr (.fact .operator) = some "-")
    (operandHas : Evaluates path chain store operand (.integer x) passings) :
    Evaluates path chain store expr (.integer (-x)) passings
  | choice {path chain store expr condition yes no holds datum first second}
      (label : graph.labelOf expr = .ternaryExpression) (condition_eq : graph.childAt? expr 0 = some condition)
      (yes_eq : graph.childAt? expr 1 = some yes) (no_eq : graph.childAt? expr 2 = some no)
      (conditionHas : Evaluates path chain store condition (.boolean holds) first)
    (chosenHas : Evaluates path chain store (if holds then yes else no) datum second) :
    Evaluates path chain store expr datum (first ++ second)
  /-- Where the callee returns nothing, the call has any datum. -/
  | call {path chain store expr args data callee returned datum first second}
      (label : graph.labelOf expr = .methodCallExpression) (args_eq : graph.arguments expr = args)
      (argsHave : EvaluatesAll path chain store args data first)
    (attached : path.invokedPath? expr = some callee) (runs : Runs callee (some expr :: chain) data returned second)
    (result : ∀ other ∈ returned, datum = other) : Evaluates path chain store expr datum (first ++ second)
  | unexpanded {path chain store expr args data datum passings} (label : graph.labelOf expr = .methodCallExpression)
    (args_eq : graph.arguments expr = args) (argsHave : EvaluatesAll path chain store args data passings)
    (unattached : path.invokedPath? expr = none) : Evaluates path chain store expr datum passings

/-- Expressions have data, one after the other. -/
inductive EvaluatesAll : CodePath → Chain → Store → List VertexId → List Datum → List Passing → Prop where
  | nil {path chain store} : EvaluatesAll path chain store [] [] []
  | cons {path chain store expr exprs datum data first second} (head : Evaluates path chain store expr datum first)
    (tail : EvaluatesAll path chain store exprs data second) :
    EvaluatesAll path chain store (expr :: exprs) (datum :: data) (first ++ second)

/-- An assignment, `++` or `--` leaves another store. -/
inductive Changes : CodePath → Chain → Store → VertexId → Store → List Passing → Prop where
  | assign {path chain store expr target source name datum after passings}
      (label : graph.labelOf expr = .assignmentExpression) (target_eq : graph.childAt? expr 0 = some target)
      (source_eq : graph.childAt? expr 1 = some source)
    (isName : graph.labelOf target = .variableExpression) (named : graph.name? target = some name)
    (operator : graph.text? expr (.fact .operator) = some "=")
    (sourceHas : Evaluates path chain store source datum passings)
    (written : store.set? name datum = some after) : Changes path chain store expr after passings
  | compound {path chain store expr target source name op sign x y z after passings}
      (label : graph.labelOf expr = .assignmentExpression) (target_eq : graph.childAt? expr 0 = some target)
      (source_eq : graph.childAt? expr 1 = some source)
    (isName : graph.labelOf target = .variableExpression) (named : graph.name? target = some name)
    (operator : graph.text? expr (.fact .operator) = some op) (performs : Datum.compound? op = some sign)
    (found : store.get? name = some (.integer x)) (sourceHas : Evaluates path chain store source (.integer y) passings)
    (result : Datum.arithmetic? sign x y = some z) (written : store.set? name (.integer z) = some after) :
    Changes path chain store expr after passings
  | step {path chain store expr target name op sign x z after} (label : graph.labelOf expr = .prefixExpression ∨
      graph.labelOf expr = .postfixExpression) (target_eq : graph.childAt? expr 0 = some target)
      (isName : graph.labelOf target = .variableExpression)
    (named : graph.name? target = some name) (operator : graph.text? expr (.fact .operator) = some op)
    (performs : Datum.step? op = some sign) (found : store.get? name = some (.integer x))
    (result : Datum.arithmetic? sign x 1 = some z)
    (written : store.set? name (.integer z) = some after) : Changes path chain store expr after []

/-- Variables are declared, one after the other; without an initializer a variable is null. -/
inductive Declares : CodePath → Chain → Store → List VertexId → Store → List Passing → Prop where
  | nil {path chain store} : Declares path chain store [] store []
  | initial {path chain store declaration declarations init datum after first second}
      (init_eq : graph.childAt? declaration 0 = some init) (initHas : Evaluates path chain store init datum first)
    (rest : Declares path chain (store.declare ((graph.name? declaration).getD "") datum) declarations after second) :
    Declares path chain store (declaration :: declarations) after (first ++ second)
  | null {path chain store declaration declarations after passings} (noInit : graph.childAt? declaration 0 = none)
    (rest : Declares path chain (store.declare ((graph.name? declaration).getD "") .null) declarations after passings) :
    Declares path chain store (declaration :: declarations) after passings

/-- What happens at a vertex of a path. A condition comes out as the path goes on. -/
inductive Passes : CodePath → Chain → Store → PathVertex → Store → List Passing → Prop where
  | idle {path chain store vertex}
      (label : graph.labelOf vertex.id ∈ [.blockStatement, .ifElseBlockStatement, .ifBlockStatement]) :
      Passes path chain store vertex store []
  | declaration {path chain store vertex declarations after passings}
      (label : graph.labelOf vertex.id = .variableDeclarationStatements)
      (declarations_eq : graph.childrenWithLabel vertex.id .variableDeclaration = declarations)
    (declares : Declares path chain store declarations after passings) : Passes path chain store vertex after passings
  | expression {path chain store vertex expr datum passings} (label : graph.labelOf vertex.id = .expressionStatement)
    (expr_eq : graph.childAt? vertex.id 0 = some expr) (exprHas : Evaluates path chain store expr datum passings) :
    Passes path chain store vertex store passings
  | change {path chain store vertex expr after passings} (label : graph.labelOf vertex.id = .expressionStatement)
    (expr_eq : graph.childAt? vertex.id 0 = some expr) (changes : Changes path chain store expr after passings) :
    Passes path chain store vertex after passings
  | condition {path chain store vertex expr holds passings} (label : graph.labelOf vertex.id = .standardCondition)
    (expr_eq : graph.childAt? vertex.id 0 = some expr)
    (exprHas : Evaluates path chain store expr (.boolean holds) passings)
    (branch : ∀ polarity ∈ vertex.polarity?, holds = true ↔ polarity = .positive) :
    Passes path chain store vertex store passings
  | returns {path chain store vertex expr datum passings} (label : graph.labelOf vertex.id = .returnStatement)
    (expr_eq : graph.childAt? vertex.id 0 = some expr) (exprHas : Evaluates path chain store expr datum passings) :
    Passes path chain store vertex { store with returned := some datum } passings
  | leaves {path chain store vertex} (label : graph.labelOf vertex.id = .returnStatement)
      (noExpr : graph.childAt? vertex.id 0 = none) : Passes path chain store vertex store []

/-- The vertices of a path are passed in order. -/
inductive Steps : CodePath → Chain → Store → List PathVertex → Store → List Passing → Prop where
  | nil {path chain store} : Steps path chain store [] store []
  | cons {path chain store vertex vertices middle after first second}
      (head : Passes path chain (store.reach graph vertex.id) vertex middle first)
      (tail : Steps path chain middle vertices after second) :
    Steps path chain store (vertex :: vertices) after (first ++ ⟨chain, vertex.id, middle⟩ :: second)

/-- A method runs along a path with data for its parameters, and returns something or nothing. -/
inductive Runs : CodePath → Chain → List Datum → Option Datum → List Passing → Prop where
  | intro {path chain data left passings} (arity : data.length = (graph.parameters path.method).length)
    (steps : Steps path chain (.entry (graph.parameters path.method) data) path.vertices left passings) :
    Runs path chain data left.returned passings

end

end

/-!
## Frames that show stores

The frame of a walked method has the variables of a store, block by block and under the same
names, and each value shows the datum. Declarations and assignments on both sides keep this.
-/

/-! ## Variables -/

/-- Variables show data under the same names, in the same order. -/
def ShowsVars : VariableMap → Bindings → Prop :=
  List.Forall₂ fun entry binding => entry.1 = binding.1 ∧ entry.2.value.Shows binding.2

theorem rel_map_snd_find? {vars : VariableMap} {bindings : Bindings} (h : ShowsVars vars bindings) (key : String) :
    Option.Rel (fun found datum => found.value.Shows datum) ((vars.find? (·.1 == key)).map (·.2))
    ((bindings.find? (·.1 == key)).map (·.2)) := by
  induction h with
  | nil => exact .none
  | @cons entry binding vars bindings hhead _ ih =>
    rw [List.find?_cons, List.find?_cons, hhead.1]
    cases binding.1 == key with
    | false => exact ih
    | true => exact .some hhead.2

theorem showsVars_assign {vars : VariableMap} {bindings : Bindings} (h : ShowsVars vars bindings) (key : String)
    {found : Variable} {datum : Datum} (hvalue : found.value.Shows datum) :
    ShowsVars (assign key found vars) (assign key datum bindings) := by
  induction h with
  | nil => exact .cons ⟨rfl, hvalue⟩ .nil
  | @cons entry binding vars bindings hhead htail ih =>
    obtain ⟨name, old⟩ := entry
    obtain ⟨name', oldDatum⟩ := binding
    obtain ⟨rfl, hold⟩ := hhead
    rw [assign, assign]
    split
    · exact .cons ⟨rfl, hvalue⟩ htail
    · exact .cons ⟨rfl, hold⟩ ih

section
variable {vars : VariableMap} {bindings : Bindings} (h : ShowsVars vars bindings) (name : String) {value : Value}
    {datum : Datum}
include h

theorem rel_get? : Option.Rel (fun found datum => found.value.Shows datum) (vars.get? name) (bindings.get? name) :=
  rel_map_snd_find? h (Text.lower name)

theorem showsVars_declare (type : String) (hvalue : value.Shows datum) :
    ShowsVars (vars.declare name type value) (bindings.declare name datum) :=
  showsVars_assign h _ hvalue

theorem rel_setVars (hvalue : value.Shows datum) :
    Option.Rel ShowsVars (vars.assign? name value) (bindings.set? name datum) := by
  have hfound := rel_get? h name
  rw [VariableMap.assign?, Bindings.set?]
  generalize vars.get? name = found at hfound ⊢
  generalize bindings.get? name = datum? at hfound ⊢
  cases hfound with
  | none => exact .none
  | some _ => exact .some (showsVars_assign h _ hvalue)

end

/-! ## Blocks -/

/-- Blocks show scopes, one for one. -/
def ShowsBlocks : List Block → List Scope → Prop := List.Forall₂ fun block scope => ShowsVars block.vars scope.vars

section
variable {blocks : List Block} {scopes : List Scope} (h : ShowsBlocks blocks scopes) (name : String)
include h

theorem rel_findSome? : Option.Rel (fun found datum => found.value.Shows datum)
    (blocks.findSome? (·.vars.get? name)) (scopes.findSome? (·.vars.get? name)) := by
  induction h with
  | nil => exact .none
  | @cons block scope blocks scopes hhead _ ih =>
    have hfound := rel_get? hhead name
    rw [List.findSome?_cons, List.findSome?_cons]
    generalize block.vars.get? name = found at hfound ⊢
    generalize scope.vars.get? name = datum? at hfound ⊢
    cases hfound with
    | none => exact ih
    | some hshows => exact .some hshows

theorem rel_setBlocks {value : Value} {datum : Datum} (hvalue : value.Shows datum) :
    Option.Rel ShowsBlocks (Frame.assignBlocks? name value blocks) (Store.setScopes? name datum scopes) := by
  induction h with
  | nil => exact .none
  | @cons block scope blocks scopes hhead htail ih =>
    have hset := rel_setVars hhead name hvalue
    rw [Frame.assignBlocks?, Store.setScopes?]
    generalize block.vars.assign? name value = vars? at hset ⊢
    generalize scope.vars.set? name datum = bindings? at hset ⊢
    cases hset with
    | some hvars => exact .some (.cons hvars htail)
    | none =>
      dsimp only
      generalize Frame.assignBlocks? name value blocks = blocks? at ih ⊢
      generalize Store.setScopes? name datum scopes = scopes? at ih ⊢
      cases ih with
      | none => exact .none
      | some hrest => exact .some (.cons hhead hrest)

end

/-! ## Frames -/

/-- A frame shows a store. -/
structure ShowsStore (frame : Frame) (store : Store) : Prop where
  parameters : ShowsVars frame.parameters store.parameters
  blocks : ShowsBlocks frame.blocks store.scopes
  returned : ∀ value ∈ frame.returned, ∃ datum ∈ store.returned, value.Shows datum

namespace ShowsStore

variable {frame : Frame} {store : Store} (h : ShowsStore frame store) (name : String) {value : Value} {datum : Datum}
include h

/-- A frame that shows a store finds a variable where the store does. -/
theorem lookup? : Option.Rel (fun found datum => found.value.Shows datum) (frame.lookup? name) (store.get? name) := by
  have hblocks := rel_findSome? h.blocks name
  rw [Frame.lookup?, Store.get?]
  generalize frame.blocks.findSome? (·.vars.get? name) = found at hblocks ⊢
  generalize store.scopes.findSome? (·.vars.get? name) = datum? at hblocks ⊢
  cases hblocks with
  | none => exact rel_get? h.parameters name
  | some hshows => exact .some hshows

theorem exists_lookup? (hfound : store.get? name = some datum) :
    ∃ found, frame.lookup? name = some found ∧ found.value.Shows datum := by
  have hrel := h.lookup? name
  rw [hfound] at hrel
  generalize frame.lookup? name = found at hrel
  cases hrel with
  | some hshows => exact ⟨_, rfl, hshows⟩

theorem literal?_eq {found : Variable} (hfound : frame.lookup? name = some found) {literal : Literal}
    (hliteral : found.value.literal? = some literal) : ∃ datum, store.get? name = some datum ∧
    literal = datum.literal := by
  have hrel := h.lookup? name
  rw [hfound] at hrel
  generalize store.get? name = datum? at hrel
  cases hrel with
  | some hshows => exact ⟨_, rfl, hshows.literal? hliteral⟩

theorem declare (type : String) (hvalue : value.Shows datum) :
    ShowsStore (frame.declare name type value) (store.declare name datum) := by
  obtain ⟨method, owner, this, returned, parameters, blocks⟩ := frame
  obtain ⟨parameters', scopes, returned'⟩ := store
  obtain ⟨hparameters, hblocks, hreturned⟩ := h
  cases hblocks with
  | nil => exact ⟨showsVars_declare hparameters name type hvalue, .nil, hreturned⟩
  | cons hhead htail => exact ⟨hparameters, .cons (showsVars_declare hhead name type hvalue) htail, hreturned⟩

/-- Assigning on both sides succeeds or fails alike. -/
theorem assign? (hvalue : value.Shows datum) :
    Option.Rel ShowsStore (frame.assign? name value) (store.set? name datum) := by
  have hblocks := rel_setBlocks h.blocks name hvalue
  have hparameters := rel_setVars h.parameters name hvalue
  rw [Frame.assign?, Store.set?]
  generalize Frame.assignBlocks? name value frame.blocks = blocks? at hblocks ⊢
  generalize Store.setScopes? name datum store.scopes = scopes? at hblocks ⊢
  cases hblocks with
  | some hrest => exact .some ⟨h.parameters, hrest, h.returned⟩
  | none =>
    dsimp only
    generalize frame.parameters.assign? name value = vars? at hparameters ⊢
    generalize store.parameters.set? name datum = bindings? at hparameters ⊢
    cases hparameters with
    | none => exact .none
    | some hvars => exact .some ⟨hvars, h.blocks, h.returned⟩

theorem assigned {after : Store} (hvalue : value.Shows datum) (hset : store.set? name datum = some after) :
    ShowsStore ((frame.assign? name value).getD frame) after := by
  have hrel := h.assign? name hvalue
  rw [hset] at hrel
  generalize frame.assign? name value = assigned at hrel ⊢
  cases hrel with
  | some hshows => exact hshows

omit name in
theorem returning (hvalue : value.Shows datum) :
    ShowsStore { frame with returned := some value } { store with returned := some datum } where
  parameters := h.parameters
  blocks := h.blocks
  returned := fun _ hother => ⟨datum, rfl, Option.some.inj hother ▸ hvalue⟩

end ShowsStore

/-! ## Parameters -/

theorem showsVars_bindParameters (parameters : List Parameter) {vars : VariableMap} {bindings : Bindings}
    (h : ShowsVars vars bindings) {values : List Value} {data : List Datum} (hvalues : ∀ entry ∈ values.zip data,
    entry.1.Shows entry.2) (harity : data.length = parameters.length) :
    ShowsVars (Walker.bindParameters vars parameters values) (Store.bind bindings parameters data) := by
  induction parameters generalizing vars bindings values data with
  | nil =>
    obtain rfl := length_eq_zero_iff.mp harity
    exact h
  | cons parameter parameters ih =>
    obtain ⟨datum, data, rfl⟩ := exists_cons_of_length_eq_add_one harity
    have harity := Nat.succ.inj harity
    cases values with
    | nil => exact ih (showsVars_declare h _ _ (Value.shows_unknown _ datum)) (by simp) harity
    | cons value values =>
      rw [zip_cons_cons] at hvalues
      obtain ⟨hvalue, hvalues⟩ := forall_mem_cons.mp hvalues
      exact ih (showsVars_declare h _ _ (hvalue.retyped _)) hvalues harity

theorem showsStore_methodFrame {σ : Type} (walker : Walker σ) (method : VertexId) (this : Option HeapRef)
    {values : List Value} {data : List Datum} (hvalues : ∀ entry ∈ values.zip data, entry.1.Shows entry.2)
    (harity : data.length = (walker.graph.parameters method).length) :
    ShowsStore (walker.methodFrame method this values) (.entry (walker.graph.parameters method) data) where
  parameters := showsVars_bindParameters _ .nil hvalues harity
  blocks := .nil
  returned := nofun

/-! ## Moments -/

/-- A walk passed the vertex where an execution passed it, and the running method showed the store. -/
def ShowsPassing (passing : Passing) (moment : Moment) : Prop :=
  moment.chain = passing.chain ∧ moment.occasion = .passed passing.vertex ∧ ∃ frame ∈ moment.symbols.frame?,
  ShowsStore frame passing.store

/-- What an execution passes is passed among the moments, in order. -/
abbrev Embeds : List Passing → List Moment → Prop := List.SublistForall₂ ShowsPassing

variable {moments : List Moment}

namespace Embeds

theorem nil : Embeds [] moments := List.SublistForall₂.nil

theorem single {passing : Passing} {moment : Moment} (h : ShowsPassing passing moment) : Embeds [passing] [moment] :=
  List.SublistForall₂.cons h .nil

theorem append {first second : List Passing} {more : List Moment} (h : Embeds first moments) (h' : Embeds second more) :
    Embeds (first ++ second) (moments ++ more) := by
  obtain ⟨shown, hshown, hsublist⟩ := sublistForall₂_iff.mp h
  obtain ⟨shown', hshown', hsublist'⟩ := sublistForall₂_iff.mp h'
  exact sublistForall₂_iff.mpr ⟨shown ++ shown', rel_append hshown hshown', hsublist.append hsublist'⟩

theorem later {passings : List Passing} (h : Embeds passings moments) (more : List Moment) :
    Embeds passings (moments ++ more) := append_nil passings ▸ h.append nil

theorem earlier {passings : List Passing} (h : Embeds passings moments) (more : List Moment) :
    Embeds passings (more ++ moments) := nil_append passings ▸ nil.append h

end Embeds

end ApexPaths.Concrete

/-!
## Scopes along a route

The open scopes of a store are those around the vertex that is passed, and a walk that closes as many blocks as
scopes end there keeps the blocks of those that enclose the next vertex.
-/

namespace ApexPaths

open Concrete List

namespace CodeGraph

variable {graph : CodeGraph}

theorem opens_eq {v : VertexId} (hv : v < graph.vertexCount) : graph.opens v = (graph.labelOf v).opensScope := by
  obtain ⟨label, hlabel⟩ := exists_label hv
  rw [opens, scope?, labelOf_eq hlabel, hlabel]
  by_cases ho : label.opensScope = true <;> simp [Option.filter_some, ho]

theorem mem_scopeLine_of_line (forest : graph.IsForest) {top v s : VertexId} (h : graph.Below top v)
    (hs : s ∈ graph.line v) (hbelow : graph.Below top s) (hopens : graph.opens s = true) : s ∈
    graph.scopeLine top v := by
  refine (scopeLine_suffix forest h hs hbelow).subset ?_
  rw [scopeLine_eq forest hbelow, if_pos hopens]
  exact mem_cons_self

end CodeGraph

/-! ## What encloses the next vertex -/

namespace Route

open CodeGraph

variable {graph : CodeGraph} {body v w : VertexId} {ids before after : List VertexId} (forest : graph.IsForest)
    (route : Route graph body ids) (h : ids = before ++ v :: w :: after)
include forest route h

theorem mem_line_of_mem_drop {s : VertexId} (hs : s ∈ (graph.scopeLine body v).drop (graph.endScopes v).length) :
    s ∈ graph.line w := by
  have hw := route.below w (by simp [h])
  rw [route.drop_scopeLine forest h] at hs
  have hline : s ∈ graph.scopeLine body w := by
    rw [scopeLine_eq forest hw]
    split
    · exact mem_cons_of_mem _ hs
    · exact hs
  exact (mem_scopeLine forest hw hline).1

theorem not_mem_line_of_mem_take {s : VertexId} (hs : s ∈ (graph.scopeLine body v).take (graph.endScopes v).length) :
    s ∉ graph.line w := by
  intro hline
  have hv := route.below v (mem h)
  have hw := route.below w (by simp [h])
  have hmem := (take_sublist _ _).subset hs
  obtain ⟨hsv, hbelow, hopens⟩ := mem_scopeLine forest hv hmem
  have hnext := mem_scopeLine_of_line forest hw hline hbelow hopens
  have hne : s ≠ w := by
    rintro rfl
    have hids : ids = (before ++ [v]) ++ s :: after := by simpa using h
    exact route.not_mem_line forest hids (mem_append_right _ mem_cons_self) hsv
  have hkept : s ∈ graph.scopeLineBefore body w := by
    rw [scopeLine_eq forest hw] at hnext
    split at hnext
    · exact (mem_cons.mp hnext).resolve_left hne
    · exact hnext
  rw [← route.drop_scopeLine forest h] at hkept
  have hnodup := nodup_scopeLine forest hv
  rw [← take_append_drop (graph.endScopes v).length (graph.scopeLine body v)] at hnodup
  exact (nodup_append.mp hnodup).2.2 s hs s hkept rfl

end Route

namespace Concrete

/-! ## Open scopes -/

def Store.openers (store : Store) : List VertexId := store.scopes.map Scope.opener

section
variable {graph : CodeGraph} {path : CodePath} {chain : Chain} {store after : Store} {passings : List Passing}

theorem openers_setScopes? {name : String} {datum : Datum} {scopes changed : List Scope}
    (h : Store.setScopes? name datum scopes = some changed) : changed.map Scope.opener = scopes.map Scope.opener := by
  induction scopes generalizing changed with
  | nil => cases h
  | cons scope scopes ih =>
    rw [Store.setScopes?] at h
    split at h
    · cases h
      rfl
    · obtain ⟨rest, hrest, rfl⟩ := Option.map_eq_some_iff.mp h
      rw [map_cons, map_cons, ih hrest]

theorem openers_set? {name : String} {datum : Datum} (h : store.set? name datum = some after) :
    after.openers = store.openers := by
  rw [Store.set?] at h
  split at h
  · cases h
    exact openers_setScopes? ‹_›
  · obtain ⟨parameters, -, rfl⟩ := Option.map_eq_some_iff.mp h
    rfl

theorem openers_declare (store : Store) (name : String) (datum : Datum) :
    (store.declare name datum).openers = store.openers := by
  obtain ⟨parameters, scopes, returned⟩ := store
  cases scopes <;> rfl

theorem openers_declares {declarations : List VertexId}
    (h : Declares graph path chain store declarations after passings) : after.openers = store.openers := by
  induction declarations generalizing store passings with
  | nil =>
    cases h
    rfl
  | cons declaration declarations ih =>
    cases h with
    | initial _ _ hrest => rw [ih hrest, openers_declare]
    | null _ hrest => rw [ih hrest, openers_declare]

theorem openers_passes {vertex : PathVertex} (h : Passes graph path chain store vertex after passings) :
    after.openers = store.openers := by
  cases h with
  | declaration _ _ hdeclares => exact openers_declares hdeclares
  | change _ _ hchanges => cases hchanges <;> exact openers_set? ‹_›
  | _ => rfl

end

/-! ## Frames between vertices -/

/-- Before a vertex of a route is entered the frame shows what is around it of the store. -/
structure ShowsAround (graph : CodeGraph) (body v : VertexId) (frame : Frame) (store : Store) : Prop where
  around : ShowsStore frame
    { store with scopes := store.scopes.filter fun scope => (graph.line v).contains scope.opener }
  openers : (store.scopes.filter fun scope => (graph.line v).contains scope.opener).map Scope.opener =
    graph.scopeLineBefore body v

section
variable {graph : CodeGraph} {body v : VertexId} {frame : Frame} {store : Store}

theorem showsAround_body (h : ShowsStore frame store) (hscopes : store.scopes = []) :
    ShowsAround graph body body frame store := by
  obtain ⟨parameters, scopes, returned⟩ := store
  obtain rfl : scopes = [] := hscopes
  exact ⟨h, (CodeGraph.scopeLineBefore_top body).symm⟩

/-- The frame after a vertex opened its scope. -/
def entered (graph : CodeGraph) (v : VertexId) (frame : Frame) : Frame :=
  if (graph.labelOf v).opensScope then frame.pushBlock (graph.labelOf v) else frame

/-- Opening a scope keeps a frame and a store in step. -/
theorem ShowsAround.entered (forest : graph.IsForest) (hbelow : graph.Below body v)
    (h : ShowsAround graph body v frame store) : ShowsStore (entered graph v frame) (store.reach graph v) ∧
    (store.reach graph v).openers = graph.scopeLine body v := by
  have hopens := CodeGraph.opens_eq hbelow.1
  have hopeners : (store.reach graph v).openers = graph.scopeLine body v := by
    rw [Store.openers, Store.reach, CodeGraph.scopeLine_eq forest hbelow, ← h.openers]
    dsimp only
    split <;> rfl
  refine ⟨?_, hopeners⟩
  rw [Concrete.entered, Store.reach, ← hopens]
  split
  · exact ⟨h.around.parameters, .cons .nil h.around.blocks, h.around.returned⟩
  · exact h.around

theorem filter_eq_drop {α : Type} {p : α → Bool} {items : List α} (count : Nat)
    (hfirst : ∀ a ∈ items.take count, p a = false) (hrest : ∀ a ∈ items.drop count, p a = true) : items.filter p =
    items.drop count := by
  conv_lhs => rw [← take_append_drop count items]
  rw [filter_append, filter_eq_nil_iff.mpr fun a ha => by rw [hfirst a ha]; nofun, filter_eq_self.mpr hrest, nil_append]

/-- Closing the blocks of a vertex leaves what is around the next one. -/
theorem showsAround_next {ids before after : List VertexId} {w : VertexId} (forest : graph.IsForest)
    (route : Route graph body ids) (hids : ids = before ++ v :: w :: after) (h : ShowsStore frame store)
    (hopeners : store.openers = graph.scopeLine body v) :
    ShowsAround graph body w (frame.popBlocks (graph.endScopes v).length) store := by
  have hkept : (store.scopes.filter fun scope => (graph.line w).contains scope.opener) =
      store.scopes.drop (graph.endScopes v).length := by
    refine filter_eq_drop _ (fun scope hscope => ?_) fun scope hscope => ?_
    · have hmem := mem_map_of_mem (f := Scope.opener) hscope
      rw [map_take, show store.scopes.map Scope.opener = _ from hopeners] at hmem
      simpa using route.not_mem_line_of_mem_take forest hids hmem
    · have hmem := mem_map_of_mem (f := Scope.opener) hscope
      rw [map_drop, show store.scopes.map Scope.opener = _ from hopeners] at hmem
      simpa using route.mem_line_of_mem_drop forest hids hmem
  refine ⟨⟨h.parameters, ?_, h.returned⟩, ?_⟩
  · rw [hkept]
    exact forall₂_drop _ h.blocks
  · rw [hkept, map_drop, show store.scopes.map Scope.opener = _ from hopeners, route.drop_scopeLine forest hids]

end

end Concrete

end ApexPaths
