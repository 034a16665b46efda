import ApexPaths.Proofs.Concrete.Fragment
import ApexPaths.Proofs.Concrete.Showing

/-!
Evaluation beside concrete executions. Where the running method shows a store, the value of an expression shows the
datum that the expression has there, and what its calls pass is passed by the walk too.
-/

namespace ApexPaths
set_option autoImplicit false

open WalkM Concrete List Operator

variable {σ : Type}

/-! ## What is said of tasks -/

section
variable (graph : CodeGraph) (path : CodePath) (chain : Chain) (expr : VertexId) (top : Frame) (rest : List Frame)

/-- An expression that changes nothing was evaluated. -/
def Evaluated (value : Value) (left : List Frame) (added : List Moment) : Prop :=
  left = top :: rest ∧ ∀ store datum passings, ShowsStore top store →
    Evaluates graph path chain store expr datum passings → value.Shows datum ∧ Embeds passings added

/-- An assignment, `++` or `--` was evaluated. Only the running method is changed. -/
def Changed (_ : Value) (left : List Frame) (added : List Moment) : Prop :=
  ∃ next, left = next :: rest ∧ ∀ store after passings, ShowsStore top store →
  Changes graph path chain store expr after passings → ShowsStore next after ∧ Embeds passings added

end

/-- An attached path was walked with these arguments; where a run along it returns nothing, the value shows any
datum. -/
def Invoked (graph : CodeGraph) (path : CodePath) (chain : Chain) (args : List Value) (frames : List Frame)
    (value : Value) (left : List Frame) (added : List Moment) : Prop :=
  left = frames ∧ ∀ data returned passings, (∀ entry ∈ args.zip data, entry.1.Shows entry.2) →
    Runs graph path chain data returned passings →
    (∀ datum, (∀ other ∈ returned, datum = other) → value.Shows datum) ∧ Embeds passings added

/-- Work that is sound beside concrete executions along expanded paths. The site is the expression whose evaluation
asks for it. -/
structure Propagates (graph : CodeGraph) (expanded : CodePath → Prop) (perform : Perform (Journal σ))
    (site : Option VertexId) : Prop where
  eval : ∀ {path expr top rest chain}, expanded path → graph.changes expr = false →
    Leaves (top :: rest) chain (perform (.eval (some path) expr)) (Evaluated graph path chain expr top rest)
  change : ∀ {path expr top rest chain}, expanded path → graph.changes expr = true →
    Leaves (top :: rest) chain (perform (.eval (some path) expr)) (Changed graph path chain expr top rest)
  invoke : ∀ {path this args frames chain}, expanded path →
    Leaves frames chain (perform (.invoke path this args)) (Invoked graph path (site :: chain) args frames)

/-- What is used of expanded paths: they are routes, paths are attached to calls only, and all attached paths are
expanded ones. -/
structure ExpandedPaths (graph : CodeGraph) (expanded : CodePath → Prop) : Prop where
  route : ∀ {path}, expanded path → ∃ body, Route graph body path.ids
  initialized : ∀ {path init}, expanded path → init ∈ path.staticInits → expanded init.2.2
  invoked : ∀ {path site sub}, expanded path → path.invokedPath? site = some sub → expanded sub
  uninvoked : ∀ {path expr}, expanded path → (graph.labelOf expr).isInvocable = false → path.invokedPath? expr = none

namespace Walker

/-! ## Literals -/

/-- The value of a literal shows its datum. -/
theorem shows_literalValue {tag text : String} {datum : Datum} (h : literalDatum? tag text = some datum) :
    (literalValue tag text).Shows datum := by
  rw [literalDatum?] at h
  rw [literalValue]
  by_cases hinteger : tag = Reserved.literalInteger
  · rw [if_pos hinteger] at h
    obtain ⟨n, hn, h⟩ := Option.bind_eq_some_iff.mp h
    obtain ⟨hfits, h⟩ := Option.ite_none_right_eq_some.mp h
    cases h
    rw [hinteger, if_neg (by decide), if_pos rfl, hn]
    have hshows := Value.shows_ofInt (BitVec.ofInt 32 n)
    rwa [hfits] at hshows
  rw [if_neg hinteger] at h
  split at h
  · rename_i htag
    cases h
    rw [htag]
    exact Value.shows_ofBool true
  split at h
  · rename_i htag
    cases h
    rw [htag]
    exact Value.shows_ofBool false
  split at h
  · rename_i htag
    cases h
    rw [htag]
    exact Value.shows_null
  · cases h

section
variable {walker : Walker (Journal σ)} {perform : Perform (Journal σ)} {expanded : CodePath → Prop} {path : CodePath}
    {expr : VertexId} {top : Frame} {rest : List Frame} {chain : Chain} (forest : walker.graph.IsForest)
    (arithmetic : walker.graph.IsArithmetic) (hperform : Propagates walker.graph expanded perform (some expr))
    (hpaths : ExpandedPaths walker.graph expanded) (hpath : expanded path)

/-! ## Operands -/

include hperform hpath in
theorem leaves_evalAll {exprs : List VertexId} (hexprs : ∀ operand ∈ exprs, walker.graph.changes operand = false) :
    Leaves (top :: rest) chain (evalAll perform (some path) exprs) fun values left added => left = top :: rest ∧
      ∀ store data passings, ShowsStore top store → EvaluatesAll walker.graph path chain store exprs data passings →
        (∀ entry ∈ values.zip data, entry.1.Shows entry.2) ∧ Embeds passings added := by
  induction exprs with
  | nil =>
    refine .pure ⟨rfl, fun store data passings _ hdata => ?_⟩
    cases hdata
    exact ⟨by simp, .nil⟩
  | cons operand exprs ih =>
    obtain ⟨hfirst, hrest⟩ := forall_mem_cons.mp hexprs
    rw [evalAll, mapM_cons]
    refine (hperform.eval hpath hfirst).bind fun value next added hvalue => ?_
    obtain ⟨rfl, hvalue⟩ := hvalue
    refine (ih hrest).bind fun values next more hvalues => ?_
    obtain ⟨rfl, hvalues⟩ := hvalues
    refine .pure ⟨rfl, fun store data passings hstore hdata => ?_⟩
    cases hdata with
    | cons hhead htail =>
      obtain ⟨hshows, hembeds⟩ := hvalue store _ _ hstore hhead
      obtain ⟨hall, hembeds'⟩ := hvalues store _ _ hstore htail
      rw [append_nil]
      exact ⟨forall_mem_cons.mpr ⟨hshows, hall⟩, hembeds.append hembeds'⟩

include forest arithmetic hperform hpath in
theorem leaves_operand {index : Nat} {operand : VertexId} (hlabel : walker.graph.labelOf expr ≠ .expressionStatement)
    (hoperand : walker.graph.childAt? expr index = some operand) :
    Leaves (top :: rest) chain (perform (.eval (some path) operand))
    (Evaluated walker.graph path chain operand top rest) :=
  hperform.eval hpath (arithmetic.changes_eq_false forest (mem_of_getElem? hoperand) hlabel)

omit perform in
theorem operands?_eq {walker : Walker (Journal σ)} {left right : VertexId}
    (hleft : walker.graph.childAt? expr 0 = some left) (hright : walker.graph.childAt? expr 1 = some right) :
    walker.operands? expr = some (left, right) := by
  rw [operands?, hleft, hright]
  rfl

theorem childAt?_of_operands? {left right : VertexId} (h : walker.operands? expr = some (left, right)) :
    walker.graph.childAt? expr 0 = some left ∧ walker.graph.childAt? expr 1 = some right := by
  obtain ⟨_, hleft, h⟩ := Option.bind_eq_some_iff.mp h
  obtain ⟨_, hright, h⟩ := Option.bind_eq_some_iff.mp h
  cases h
  exact ⟨hleft, hright⟩

/-! ## Operators -/

section
include forest arithmetic hperform hpath

/-- Both operands, the left one first. -/
theorem leaves_evalBinary (hlabel : walker.graph.labelOf expr = .binaryExpression) :
    Leaves (top :: rest) chain (walker.evalBinary perform (some path) expr)
    (Evaluated walker.graph path chain expr top rest) := by
  have hnot : walker.graph.labelOf expr ≠ .expressionStatement := by rw [hlabel]; simp
  rw [evalBinary]
  cases hoperands : walker.operands? expr with
  | none =>
    refine .pure ⟨rfl, fun store datum passings _ hdatum => ?_⟩
    cases hdatum with
    | arithmetic _ hleft hright => cases hoperands.symm.trans (operands?_eq hleft hright)
    | _ => cases hlabel.symm.trans ‹walker.graph.labelOf expr = _›
  | some operands =>
    obtain ⟨left, right⟩ := operands
    obtain ⟨hleft, hright⟩ := childAt?_of_operands? hoperands
    refine (leaves_operand forest arithmetic hperform hpath hnot hleft).bind fun leftValue next added hleftValue => ?_
    obtain ⟨rfl, hleftValue⟩ := hleftValue
    refine (leaves_operand forest arithmetic hperform hpath hnot hright).bind fun rightValue next more hrightValue => ?_
    obtain ⟨rfl, hrightValue⟩ := hrightValue
    refine .pure ⟨rfl, fun store datum passings hstore hdatum => ?_⟩
    cases hdatum with
    | arithmetic _ hleft' hright' hop hx hy hz =>
      cases hleft.symm.trans hleft'
      cases hright.symm.trans hright'
      obtain ⟨hshows, hembeds⟩ := hleftValue store _ _ hstore hx
      obtain ⟨hshows', hembeds'⟩ := hrightValue store _ _ hstore hy
      rw [operatorOf, hop, append_nil]
      exact ⟨Value.shows_getD (shows_of_binary? hshows hshows' hz) rfl, hembeds.append hembeds'⟩
    | _ => cases hlabel.symm.trans ‹walker.graph.labelOf expr = _›

/-- A conjunction or a disjunction takes its right operand only where the left one leaves it open. -/
theorem leaves_evalBoolean (hlabel : walker.graph.labelOf expr = .booleanExpression) :
    Leaves (top :: rest) chain (walker.evalBoolean perform (some path) expr)
    (Evaluated walker.graph path chain expr top rest) := by
  have hnot : walker.graph.labelOf expr ≠ .expressionStatement := by rw [hlabel]; simp
  rw [evalBoolean]
  dsimp only
  cases hoperands : walker.operands? expr with
  | none =>
    refine .pure ⟨rfl, fun store datum passings _ hdatum => ?_⟩
    cases hdatum with
    | comparison _ hleft hright | decided _ hleft hright | undecided _ hleft hright =>
      cases hoperands.symm.trans (operands?_eq hleft hright)
    | _ => cases hlabel.symm.trans ‹walker.graph.labelOf expr = _›
  | some operands =>
    obtain ⟨left, right⟩ := operands
    obtain ⟨hleft, hright⟩ := childAt?_of_operands? hoperands
    have hrightLeaves : Leaves (top :: rest) chain (perform (.eval (some path) right))
        (Evaluated walker.graph path chain right top rest) :=
      leaves_operand forest arithmetic hperform hpath hnot hright
    have hop : ∀ {op}, walker.graph.text? expr (.fact .operator) = some op → walker.operatorOf expr "==" = op :=
      fun h => by
      rw [operatorOf, h]
      rfl
    refine (leaves_operand forest arithmetic hperform hpath hnot hleft).bind fun leftValue next added hleftValue => ?_
    obtain ⟨rfl, hleftValue⟩ := hleftValue
    by_cases hlogical : walker.operatorOf expr "==" = "&&" ∨ walker.operatorOf expr "==" = "||"
    · rw [if_pos hlogical]
      cases hshort : shortCircuit? (walker.operatorOf expr "==") leftValue with
      | some decided =>
        refine .pure ⟨rfl, fun store datum passings hstore hdatum => ?_⟩
        rw [append_nil]
        cases hdatum with
        | comparison _ _ _ hop' _ _ hholds =>
          exact absurd (hop hop' ▸ hlogical) (not_logical_of_compares hholds)
        | decided _ hleft' _ hop' hdecides hhas =>
          cases hleft.symm.trans hleft'
          rw [hop hop'] at hshort
          exact ⟨shows_of_shortCircuit? hdecides _ hshort, (hleftValue store _ _ hstore hhas).2⟩
        | undecided _ hleft' _ hop' hdecides hhas =>
          cases hleft.symm.trans hleft'
          rw [hop hop', shortCircuit?_eq_none hdecides (hleftValue store _ _ hstore hhas).1] at hshort
          cases hshort
        | _ => cases hlabel.symm.trans ‹walker.graph.labelOf expr = _›
      | none =>
        refine hrightLeaves.bind fun rightValue next more hrightValue => ?_
        obtain ⟨rfl, hrightValue⟩ := hrightValue
        refine .pure ⟨rfl, fun store datum passings hstore hdatum => ?_⟩
        rw [append_nil]
        cases hdatum with
        | comparison _ _ _ hop' _ _ hholds =>
          exact absurd (hop hop' ▸ hlogical) (not_logical_of_compares hholds)
        | decided _ hleft' _ hop' hdecides hhas =>
          cases hleft.symm.trans hleft'
          obtain ⟨hshows, hembeds⟩ := hleftValue store _ _ hstore hhas
          rw [hop hop']
          exact ⟨Value.shows_getD (shows_of_logical?_left hdecides hshows) rfl, hembeds.later more⟩
        | undecided _ hleft' hright' hop' hdecides hhas hhas' =>
          cases hleft.symm.trans hleft'
          cases hright.symm.trans hright'
          obtain ⟨hshows, hembeds⟩ := hleftValue store _ _ hstore hhas
          obtain ⟨hshows', hembeds'⟩ := hrightValue store _ _ hstore hhas'
          rw [hop hop']
          exact ⟨Value.shows_getD (shows_of_logical?_right hdecides hshows hshows') rfl,
            hembeds.append hembeds'⟩
        | _ => cases hlabel.symm.trans ‹walker.graph.labelOf expr = _›
    · rw [if_neg hlogical]
      refine hrightLeaves.bind fun rightValue next more hrightValue => ?_
      obtain ⟨rfl, hrightValue⟩ := hrightValue
      refine .pure ⟨rfl, fun store datum passings hstore hdatum => ?_⟩
      rw [append_nil]
      have hundeciding : ∀ {op decides}, walker.graph.text? expr (.fact .operator) = some op →
          Datum.deciding? op ≠ some decides := by
        intro op decides hop' hdecides
        refine hlogical ?_
        rw [hop hop']
        exact (deciding?_cases hdecides).imp And.left And.left
      cases hdatum with
      | comparison _ hleft' hright' hop' hhas hhas' hholds =>
        cases hleft.symm.trans hleft'
        cases hright.symm.trans hright'
        obtain ⟨hshows, hembeds⟩ := hleftValue store _ _ hstore hhas
        obtain ⟨hshows', hembeds'⟩ := hrightValue store _ _ hstore hhas'
        rw [hop hop']
        exact ⟨Value.shows_getD (shows_of_compare? hshows hshows' hholds) rfl, hembeds.append hembeds'⟩
      | decided _ _ _ hop' hdecides | undecided _ _ _ hop' hdecides => exact absurd hdecides (hundeciding hop')
      | _ => cases hlabel.symm.trans ‹walker.graph.labelOf expr = _›

theorem leaves_evalUnary (hlabel : walker.graph.labelOf expr = .prefixExpression ∨
    walker.graph.labelOf expr = .postfixExpression) (hchanges : walker.graph.changes expr = false) :
    Leaves (top :: rest) chain (walker.evalUnary perform (some path) expr)
    (Evaluated walker.graph path chain expr top rest) := by
  have hnot : walker.graph.labelOf expr ≠ .expressionStatement := by rcases hlabel with h | h <;> rw [h] <;> simp
  have hop : ¬(walker.operatorOf expr "" = "++" ∨ walker.operatorOf expr "" = "--") := by
    intro hop
    rw [CodeGraph.changes] at hchanges
    rcases hlabel with h | h <;> rw [h] at hchanges <;> rcases hop with hop | hop <;> rw [operatorOf] at hop <;>
      rw [hop] at hchanges <;> cases hchanges
  rw [evalUnary]
  cases hoperand : walker.graph.childAt? expr 0 with
  | none =>
    refine .pure ⟨rfl, fun store datum passings _ hdatum => ?_⟩
    cases hdatum with
    | not _ hoperand' | minus _ hoperand' => cases hoperand.symm.trans hoperand'
    | _ =>
      have hkind := ‹walker.graph.labelOf expr = _›
      simp [hkind] at hlabel
  | some operand =>
    dsimp only
    rw [if_neg hop]
    refine (leaves_operand forest arithmetic hperform hpath hnot hoperand).bind fun value next added hvalue => ?_
    obtain ⟨rfl, hvalue⟩ := hvalue
    refine .pure ⟨rfl, fun store datum passings hstore hdatum => ?_⟩
    rw [append_nil]
    cases hdatum with
    | not _ hoperand' hop' hhas =>
      cases hoperand.symm.trans hoperand'
      obtain ⟨hshows, hembeds⟩ := hvalue store _ _ hstore hhas
      rw [operatorOf, hop']
      exact ⟨Value.shows_getD (shows_of_not hshows) rfl, hembeds⟩
    | minus _ hoperand' hop' hhas =>
      cases hoperand.symm.trans hoperand'
      obtain ⟨hshows, hembeds⟩ := hvalue store _ _ hstore hhas
      rw [operatorOf, hop']
      exact ⟨Value.shows_getD (shows_of_minus hshows) rfl, hembeds⟩
    | _ =>
      have hkind := ‹walker.graph.labelOf expr = _›
      simp [hkind] at hlabel

/-- A ternary takes the branch that its condition decides, and both where nothing is known of it. -/
theorem leaves_evalTernary (hlabel : walker.graph.labelOf expr = .ternaryExpression) :
    Leaves (top :: rest) chain (walker.evalTernary perform (some path) expr)
    (Evaluated walker.graph path chain expr top rest) := by
  have hnot : walker.graph.labelOf expr ≠ .expressionStatement := by rw [hlabel]; simp
  rw [evalTernary]
  cases hoperands : walker.operands? expr with
  | none =>
    refine .pure ⟨rfl, fun store datum passings _ hdatum => ?_⟩
    cases hdatum with
    | choice _ hcondition hyes => cases hoperands.symm.trans (operands?_eq hcondition hyes)
    | _ => cases hlabel.symm.trans ‹walker.graph.labelOf expr = _›
  | some operands =>
    obtain ⟨condition, yes⟩ := operands
    obtain ⟨hcondition, hyes⟩ := childAt?_of_operands? hoperands
    cases hno : walker.graph.childAt? expr 2 with
    | none =>
      refine .pure ⟨rfl, fun store datum passings _ hdatum => ?_⟩
      cases hdatum with
      | choice _ _ _ hno' => cases hno.symm.trans hno'
      | _ => cases hlabel.symm.trans ‹walker.graph.labelOf expr = _›
    | some no =>
      have hyesLeaves : Leaves (top :: rest) chain (perform (.eval (some path) yes))
          (Evaluated walker.graph path chain yes top rest) :=
        leaves_operand forest arithmetic hperform hpath hnot hyes
      have hnoLeaves : Leaves (top :: rest) chain (perform (.eval (some path) no))
          (Evaluated walker.graph path chain no top rest) :=
        leaves_operand forest arithmetic hperform hpath hnot hno
      -- Of a concrete choice only the condition and the chosen side matter.
      have hchoice : ∀ {store datum passings}, Evaluates walker.graph path chain store expr datum passings →
        ∃ holds first second, Evaluates walker.graph path chain store condition (.boolean holds) first ∧
          Evaluates walker.graph path chain store (if holds then yes else no) datum second ∧
          passings = first ++ second := by
        intro store datum passings hdatum
        cases hdatum with
        | choice _ hcondition' hyes' hno' hhas hhas' =>
          cases hcondition.symm.trans hcondition'
          cases hyes.symm.trans hyes'
          cases hno.symm.trans hno'
          exact ⟨_, _, _, hhas, hhas', rfl⟩
        | _ => cases hlabel.symm.trans ‹walker.graph.labelOf expr = _›
      refine (leaves_operand forest arithmetic hperform hpath hnot hcondition).bind fun value next added hvalue => ?_
      obtain ⟨rfl, hvalue⟩ := hvalue
      have hknown : ∀ {b}, value.bool? = some b → ∀ {m : WalkM (Journal σ) Value},
          Leaves (top :: rest) chain m (Evaluated walker.graph path chain (if b then yes else no) top rest) →
          Leaves (top :: rest) chain m fun value left more =>
          Evaluated walker.graph path chain expr top rest value left (added ++ more) := by
        intro b hb m hm
        refine hm.imp fun chosen left more hchosen => ⟨hchosen.1, fun store datum passings hstore hdatum => ?_⟩
        obtain ⟨holds, first, second, hhas, hhas', rfl⟩ := hchoice hdatum
        obtain ⟨hshows, hembeds⟩ := hvalue store _ _ hstore hhas
        obtain rfl := hshows.bool? hb
        obtain ⟨hshows', hembeds'⟩ := hchosen.2 store _ _ hstore hhas'
        exact ⟨hshows', hembeds.append hembeds'⟩
      cases hb : value.bool? with
      | some b =>
        cases b with
        | true => exact hknown hb hyesLeaves
        | false => exact hknown hb hnoLeaves
      | none =>
        refine hyesLeaves.bind fun yesValue next more hyesValue => ?_
        obtain ⟨rfl, hyesValue⟩ := hyesValue
        refine hnoLeaves.bind fun noValue next most hnoValue => ?_
        obtain ⟨rfl, hnoValue⟩ := hnoValue
        refine .pure ⟨rfl, fun store datum passings hstore hdatum => ?_⟩
        rw [append_nil]
        obtain ⟨holds, first, second, hhas, hhas', rfl⟩ := hchoice hdatum
        have hembeds := (hvalue store _ _ hstore hhas).2
        cases holds with
        | true =>
          obtain ⟨hshows, hembeds'⟩ := hyesValue store _ _ hstore hhas'
          refine ⟨?_, hembeds.append (hembeds'.later most)⟩
          split
          · exact hshows
          · exact Value.shows_unknown _ _
        | false =>
          obtain ⟨hshows, hembeds'⟩ := hnoValue store _ _ hstore hhas'
          refine ⟨?_, hembeds.append (hembeds'.earlier more)⟩
          split
          · exact hshows.of_sameContent ‹_›
          · exact Value.shows_unknown _ _

end

/-! ## Names and calls -/

section
include arithmetic

omit hperform hpath in
theorem steady_declaredValue (binding : Binding) (name : String) :
    Steady (top :: rest) chain (walker.declaredValue perform binding name) := by
  rw [declaredValue]
  split
  · refine Steady.bind ?_ fun _ => .pure _
    exact Steady.bind (steady_ensureInitialized arithmetic.isBare _) fun _ => .symbols_bind fun _ _ => .pure rfl
  · exact Steady.pure _

theorem leaves_nameValue? (name : String) (place : VertexId) :
    Leaves (top :: rest) chain (walker.nameValue? perform name place) fun found left _ => left = top :: rest ∧
      ∀ store datum, ShowsStore top store → store.get? name = some datum → ∃ value, found = some value ∧
      value.Shows datum := by
  refine .frame_bind (.symbols_bind fun symbols hframes => ?_)
  have hlookup : ∀ store datum, ShowsStore top store → store.get? name = some datum → ∃ value,
      symbols.lookup? name = some value ∧ value.Shows datum := by
    intro store datum hstore hdatum
    obtain ⟨found, hfound, hshows⟩ := hstore.exists_lookup? name hdatum
    refine ⟨found.value, ?_, hshows⟩
    rw [Symbols.lookup?, Symbols.frame?, hframes]
    show ((top.lookup? name).map (·.value) <|> _) = _
    rw [hfound]
    rfl
  cases hvalue : symbols.lookup? name with
  | some value => exact .pure ⟨rfl, fun store datum hstore hdatum => hvalue ▸ hlookup store datum hstore hdatum⟩
  | none =>
    have hnone : ∀ found : Option Value, ∀ store datum, ShowsStore top store → store.get? name = some datum → ∃ value,
        found = some value ∧ value.Shows datum := by
      intro found store datum hstore hdatum
      obtain ⟨value, hsome, -⟩ := hlookup store datum hstore hdatum
      rw [hvalue] at hsome
      cases hsome
    cases walker.program.variableBinding? name place with
    | some binding =>
      refine Leaves.bind (steady_declaredValue arithmetic binding name) fun value next _ hnext => ?_
      exact .pure ⟨hnext, hnone _⟩
    | none => exact .pure ⟨rfl, hnone _⟩

end

theorem attached?_eq (path : CodePath) (expr : VertexId) : attached? (some path) expr = path.invokedPath? expr := rfl

section
include arithmetic hpaths hpath

/-- A name shows what the store has under it. -/
theorem leaves_evalVariable (hlabel : walker.graph.labelOf expr = .variableExpression) :
    Leaves (top :: rest) chain (walker.evalVariable perform (some path) expr)
    (Evaluated walker.graph path chain expr top rest) := by
  have hread : Leaves (top :: rest) chain (do
      return (← walker.nameValue? perform ((walker.graph.name? expr).getD "") expr).getD (walker.unknown expr))
        (Evaluated walker.graph path chain expr top rest) := by
    refine (leaves_nameValue? arithmetic _ expr).bind fun found next _ hfound => ?_
    obtain ⟨rfl, hfound⟩ := hfound
    refine .pure ⟨rfl, fun store datum passings hstore hdatum => ?_⟩
    cases hdatum with
    | name _ hname hget =>
      rw [hname, Option.getD_some] at hfound
      obtain ⟨value, rfl, hshows⟩ := hfound store datum hstore hget
      exact ⟨hshows, .nil⟩
    | _ => cases hlabel.symm.trans ‹walker.graph.labelOf expr = _›
  rw [evalVariable, attached?_eq, hpaths.uninvoked hpath (by rw [hlabel]; rfl)]
  dsimp only
  rw [readVariable]
  rcases arithmetic.qualifier?_eq (.inl hlabel) with hnone | ⟨qualifier, hsome, hempty⟩
  · rw [hnone]
    exact hread
  · rw [hsome]
    dsimp only
    rw [hempty]
    exact hread

end

section
include forest arithmetic hperform hpaths hpath

/-- A call passes its arguments and shows what the method returns. -/
theorem leaves_evalCall (hlabel : walker.graph.labelOf expr = .methodCallExpression) :
    Leaves (top :: rest) chain (walker.evalCall perform (some path) expr)
    (Evaluated walker.graph path chain expr top rest) := by
  have hreceiver : walker.graph.receiver? expr = none ∨ ∃ receiver, walker.graph.receiver? expr = some receiver ∧
      walker.graph.labelOf receiver = .emptyReferenceExpression := by
    rw [CodeGraph.receiver?]
    split
    · exact arithmetic.qualifier?_eq (.inr hlabel)
    · exact .inl rfl
  have htarget : walker.callTarget? perform (some path) expr = pure none := by
    rw [callTarget?]
    rcases hreceiver with hnone | ⟨receiver, hsome, hempty⟩
    · rw [hnone]
    · rw [hsome]
      dsimp only
      rw [hempty]
  have hargs : ∀ operand ∈ walker.graph.arguments expr, walker.graph.changes operand = false := fun operand hoperand =>
    arithmetic.changes_eq_false forest (CodeGraph.mem_children_of_mem_arguments hoperand) (by rw [hlabel]; simp)
  rw [evalCall, htarget, pure_bind]
  refine (leaves_evalAll hperform hpath hargs).bind fun values next added hvalues => ?_
  obtain ⟨rfl, hvalues⟩ := hvalues
  rw [attached?_eq]
  cases hattached : path.invokedPath? expr with
  | some callee =>
    refine Leaves.this?.bind fun this next silent hnext => ?_
    obtain ⟨rfl, rfl⟩ := hnext
    refine (hperform.invoke (hpaths.invoked hpath hattached)).imp fun value left more hinvoked => ?_
    obtain ⟨rfl, hinvoked⟩ := hinvoked
    refine ⟨rfl, fun store datum passings hstore hdatum => ?_⟩
    cases hdatum with
    | call _ hargs' hdata hattached' hruns hresult =>
      obtain rfl := hargs'
      cases hattached.symm.trans hattached'
      obtain ⟨hall, hembeds⟩ := hvalues store _ _ hstore hdata
      obtain ⟨hshows, hembeds'⟩ := hinvoked _ _ _ hall hruns
      exact ⟨hshows datum hresult, hembeds.append hembeds'⟩
    | unexpanded _ _ _ hunattached => cases hattached.symm.trans hunattached
    | _ => cases hlabel.symm.trans ‹walker.graph.labelOf expr = _›
  | none =>
    refine .pure ⟨rfl, fun store datum passings hstore hdatum => ⟨Value.shows_unknown _ datum, ?_⟩⟩
    rw [append_nil]
    cases hdatum with
    | call _ _ _ hattached' => cases hattached.symm.trans hattached'
    | unexpanded _ hargs' hdata =>
      obtain rfl := hargs'
      exact (hvalues store _ _ hstore hdata).2
    | _ => cases hlabel.symm.trans ‹walker.graph.labelOf expr = _›

end

/-! ## Places -/

section
include arithmetic

theorem leaves_variablePlace (name : String) (target : VertexId) :
    Leaves (top :: rest) chain (walker.variablePlace perform name target) fun place left _ => left = top :: rest ∧
      ((top.lookup? name).isSome = true → place = .variable name) := by
  refine .frame_bind (.symbols_bind fun symbols _ => ?_)
  split
  · exact .pure ⟨rfl, fun _ => rfl⟩
  · rename_i hnone
    have hother : ∀ place : Place,
      Leaves (top :: rest) chain (pure place : WalkM (Journal σ) Place) fun place left _ => left = top :: rest ∧
        ((top.lookup? name).isSome = true → place = .variable name) :=
        fun place => .pure ⟨rfl, fun hsome => absurd hsome hnone⟩
    split
    · exact hother _
    · split
      · exact hother _
      · split
        · exact Leaves.after (steady_ensureInitialized arithmetic.isBare _) fun _ _ => hother _
        · exact Leaves.after (steady_ensureInitialized arithmetic.isBare _) fun _ _ => hother _
        · exact hother _
        · exact hother _
        · exact hother _
        · exact hother _
        · exact hother _

theorem leaves_placeOf (sites : Option CodePath) (target : VertexId) :
    Leaves (top :: rest) chain (walker.placeOf perform sites target) fun place left _ => left = top :: rest ∧
      (walker.graph.labelOf target = .variableExpression → ∀ name, walker.graph.name? target = some name →
      (top.lookup? name).isSome = true → place = .variable name) := by
  have hname : Leaves (top :: rest) chain (walker.variablePlace perform ((walker.graph.name? target).getD "") target)
    fun place left _ => left = top :: rest ∧
      (walker.graph.labelOf target = .variableExpression → ∀ name, walker.graph.name? target = some name →
      (top.lookup? name).isSome = true → place = .variable name) := by
    refine (leaves_variablePlace arithmetic _ target).imp fun place left _ hplace =>
      ⟨hplace.1, fun _ name hname hfound => ?_⟩
    rw [hname] at hplace
    exact hplace.2 hfound
  rw [placeOf]
  split
  · rename_i hlabel
    rcases arithmetic.qualifier?_eq (.inl hlabel) with hnone | ⟨qualifier, hsome, hempty⟩
    · rw [hnone]
      exact hname
    · rw [hsome]
      dsimp only
      rw [hempty]
      exact hname
  · rename_i hlabel
    have hkind := arithmetic.kind target
    rw [hlabel] at hkind
    cases hkind
  · rename_i hnot _
    exact .pure ⟨rfl, fun hlabel => absurd hlabel hnot⟩

end

theorem leaves_read? (place : Place) :
    Leaves (top :: rest) chain (place.read? : WalkM (Journal σ) (Option Value)) fun found left added => left = top ::
    rest ∧ added = [] ∧ ∀ name variable_, place = .variable name → top.lookup? name = some variable_ →
    found = some variable_.value := by
  cases place with
  | «variable» name =>
    refine .symbols_bind fun symbols hframes => .pure ⟨rfl, rfl, fun other variable_ hplace hfound => ?_⟩
    cases hplace
    rw [Symbols.frame?, hframes]
    show (top.lookup? name).map (·.value) = _
    rw [hfound]
    rfl
  | field object name => exact .heap_bind fun heap => .pure ⟨rfl, rfl, by simp⟩
  | static owner name => exact .symbols_bind fun symbols _ => .pure ⟨rfl, rfl, by simp⟩
  | element container index => exact Leaves.onHeap.imp fun _ _ _ hsilent => ⟨hsilent.1, hsilent.2, by simp⟩
  | unknown => exact .pure ⟨rfl, rfl, by simp⟩

/-- A write to a name changes the top frame alone. -/
theorem leaves_write (place : Place) (value : Value) :
    Leaves (top :: rest) chain (place.write value : WalkM (Journal σ) Unit) fun _ left added => ∃ next,
    left = next :: rest ∧ added = [] ∧ ∀ name, place = .variable name → next = (top.assign? name value).getD top := by
  cases place with
  | «variable» name =>
    refine (Leaves.mapFrame _).imp fun _ left added hleft => ⟨_, hleft.1, hleft.2, fun other hplace => ?_⟩
    cases hplace
    rfl
  | field object name =>
    rw [Place.write]
    exact Leaves.onHeap.imp fun _ _ _ hsilent => ⟨top, hsilent.1, hsilent.2, by simp⟩
  | static owner name =>
    rw [Place.write]
    exact (Leaves.modifyStatics _).imp fun _ _ _ hsilent => ⟨top, hsilent.1, hsilent.2, by simp⟩
  | element container index =>
    have hcall : ∀ method args,
      Leaves (top :: rest) chain (callLibrary? (.value container) method args : WalkM (Journal σ) (Option Value))
      fun _ left added => left = top :: rest ∧ added = [] := fun _ _ => .onHeap
    exact ((hcall _ _).imp fun _ _ _ hsilent => ⟨top, hsilent.1, hsilent.2, by simp⟩).discard
  | unknown => exact .pure ⟨top, rfl, rfl, by simp⟩

/-! ## Changes -/

theorem compound?_eq {op sign : String} (h : Datum.compound? op = some sign) : compound? op = some sign := by
  unfold Datum.compound? at h
  split at h <;> cases h <;> decide

theorem compound?_assign : compound? "=" = none := by decide

theorem leaves_writing (path : CodePath) (expr : VertexId) {place : Place} {value : Value} (done : List Moment)
    (result : Value) (h : ∀ store after passings, ShowsStore top store →
    Changes walker.graph path chain store expr after passings →
      (∃ name datum, place = .variable name ∧ store.set? name datum = some after ∧ value.Shows datum) ∧
      Embeds passings done) :
    Leaves (top :: rest) chain (do place.write value; return result : WalkM (Journal σ) Value) fun result left more =>
      Changed walker.graph path chain expr top rest result left (done ++ more) := by
  refine (leaves_write place value).bind fun _ left _ hleft => ?_
  obtain ⟨next, rfl, rfl, hnext⟩ := hleft
  refine .pure ⟨next, rfl, fun store after passings hstore hchanges => ?_⟩
  obtain ⟨⟨name, datum, hplace, hset, hshows⟩, hembeds⟩ := h store after passings hstore hchanges
  rw [hnext name hplace]
  exact ⟨hstore.assigned name hshows hset, hembeds.later _⟩

theorem isSome_lookup? {store after : Store} {name : String} {datum : Datum} (hstore : ShowsStore top store)
    (hset : store.set? name datum = some after) : (top.lookup? name).isSome = true := by
  obtain ⟨old, hold⟩ := Store.exists_get?_of_set? hset
  obtain ⟨found, hfound, -⟩ := hstore.exists_lookup? name hold
  rw [hfound]
  rfl

section
include arithmetic

section
include forest hperform hpaths hpath

/-- An assignment shows the new datum in the store and as its value. -/
theorem leaves_evalAssignment (hlabel : walker.graph.labelOf expr = .assignmentExpression) :
    Leaves (top :: rest) chain (walker.evalAssignment perform (some path) expr)
    (Changed walker.graph path chain expr top rest) := by
  have hnot : walker.graph.labelOf expr ≠ .expressionStatement := by rw [hlabel]; simp
  rw [evalAssignment]
  cases hoperands : walker.operands? expr with
  | none =>
    refine .pure ⟨top, rfl, fun store after passings _ hchanges => ?_⟩
    cases hchanges with
    | assign _ htarget hsource | compound _ htarget hsource => cases hoperands.symm.trans (operands?_eq htarget hsource)
    | step hkind => simp [hlabel] at hkind
  | some operands =>
    obtain ⟨target, source⟩ := operands
    obtain ⟨htarget, hsource⟩ := childAt?_of_operands? hoperands
    have hop : ∀ {op}, walker.graph.text? expr (.fact .operator) = some op → walker.operatorOf expr "=" = op :=
      fun h => by
      rw [operatorOf, h]
      rfl
    refine (leaves_placeOf arithmetic (some path) target).bind fun place next added hplace => ?_
    obtain ⟨rfl, hplace⟩ := hplace
    refine (leaves_operand forest arithmetic hperform hpath hnot hsource).bind fun assigned next more hassigned => ?_
    obtain ⟨rfl, hassigned⟩ := hassigned
    rw [attached?_eq, hpaths.uninvoked hpath (by rw [hlabel]; rfl)]
    cases hcompound : compound? (walker.operatorOf expr "=") with
    | none =>
      dsimp only
      refine (leaves_writing path expr (added ++ more) assigned fun store after passings hstore hchanges => ?_).imp
        fun _ _ _ hchanged => by rwa [← List.append_assoc]
      cases hchanges with
      | assign _ htarget' hsource' hisName hname _ hhas hset =>
        cases htarget.symm.trans htarget'
        cases hsource.symm.trans hsource'
        obtain ⟨hshows, hembeds⟩ := hassigned store _ _ hstore hhas
        exact ⟨⟨_, _, hplace hisName _ hname (isSome_lookup? hstore hset), hset, hshows⟩, hembeds.earlier added⟩
      | compound _ _ _ _ _ hop' hperforms =>
        rw [hop hop', compound?_eq hperforms] at hcompound
        cases hcompound
      | step hkind => simp [hlabel] at hkind
    | some sign =>
      dsimp only
      refine (leaves_read? place).bind fun found next silent hfound => ?_
      obtain ⟨rfl, rfl, hfound⟩ := hfound
      rw [pure_bind]
      refine (leaves_writing path expr (added ++ more) _ fun store after passings hstore hchanges => ?_).imp
        fun _ _ _ hchanged => by rwa [nil_append, ← List.append_assoc]
      cases hchanges with
      | assign _ _ _ _ _ hop' =>
        rw [hop hop', compound?_assign] at hcompound
        cases hcompound
      | compound _ htarget' hsource' hisName hname hop' hperforms hold hhas hz hset =>
        cases htarget.symm.trans htarget'
        cases hsource.symm.trans hsource'
        rw [hop hop', compound?_eq hperforms] at hcompound
        cases hcompound
        obtain ⟨hshows, hembeds⟩ := hassigned store _ _ hstore hhas
        obtain ⟨old, hlookup, holdShows⟩ := hstore.exists_lookup? _ hold
        have hvariable := hplace hisName _ hname (isSome_lookup? hstore hset)
        rw [hfound _ old hvariable hlookup, Option.getD_some]
        exact ⟨⟨_, _, hvariable, hset, Value.shows_getD (shows_of_binary? holdShows hshows hz) rfl⟩,
          hembeds.earlier added⟩
      | step hkind => simp [hlabel] at hkind

end

/-- A step writes the number after or before and shows what it gives. -/
theorem leaves_evalStep (journals : walker.visitor.Journals)
    (hlabel : walker.graph.labelOf expr = .prefixExpression ∨ walker.graph.labelOf expr = .postfixExpression)
    (hchanges : walker.graph.changes expr = true) :
    Leaves (top :: rest) chain (walker.evalUnary perform (some path) expr)
    (Changed walker.graph path chain expr top rest) := by
  have hop : walker.operatorOf expr "" = "++" ∨ walker.operatorOf expr "" = "--" := by
    rw [CodeGraph.changes] at hchanges
    rcases hlabel with h | h <;> rw [h] at hchanges <;> simpa [operatorOf] using hchanges
  rw [evalUnary]
  cases hoperand : walker.graph.childAt? expr 0 with
  | none =>
    refine .pure ⟨top, rfl, fun store after passings _ hchanges => ?_⟩
    cases hchanges with
    | assign hkind | compound hkind => simp [hkind] at hlabel
    | step _ htarget => cases hoperand.symm.trans htarget
  | some operand =>
    dsimp only
    rw [if_pos hop]
    refine (leaves_placeOf arithmetic (some path) operand).bind fun place next added hplace => ?_
    obtain ⟨rfl, hplace⟩ := hplace
    refine (leaves_read? place).bind fun found next silent hfound => ?_
    obtain ⟨rfl, rfl, hfound⟩ := hfound
    refine (leaves_seeing journals _ _).bind fun _ next silent hnext => ?_
    obtain ⟨rfl, rfl⟩ := hnext
    refine (leaves_writing path expr added _ fun store after passings hstore hchanges => ?_).imp fun _ _ _ hchanged =>
      hchanged
    cases hchanges with
    | assign hkind | compound hkind => simp [hkind] at hlabel
    | step _ htarget hisName hname hop' hperforms hold hz hset =>
      cases hoperand.symm.trans htarget
      obtain ⟨old, hlookup, holdShows⟩ := hstore.exists_lookup? _ hold
      have hvariable := hplace hisName _ hname (isSome_lookup? hstore hset)
      rw [hfound _ old hvariable hlookup, Option.getD_some, operatorOf, hop', Option.getD_some]
      exact ⟨⟨_, _, hvariable, hset, Value.shows_getD (shows_of_step? hperforms holdShows hz) rfl⟩, .nil⟩

end

/-! ## All expressions -/

section
include forest arithmetic hperform hpaths hpath

/-- What changes nothing. The cases are those of the label; no other kinds have concrete evaluations. -/
theorem leaves_evalKind_unchanging (hchanges : walker.graph.changes expr = false) :
    Leaves (top :: rest) chain (walker.evalKind perform (some path) expr)
    (Evaluated walker.graph path chain expr top rest) := by
  have hkind := arithmetic.kind expr
  rw [evalKind]
  cases hlabel : walker.graph.labelOf expr with
  | literalExpression =>
    refine .pure ⟨rfl, fun store datum passings _ hdatum => ?_⟩
    cases hdatum with
    | literal _ hread => exact ⟨shows_literalValue hread, .nil⟩
    | _ => cases hlabel.symm.trans ‹walker.graph.labelOf expr = _›
  | variableExpression => exact leaves_evalVariable arithmetic hpaths hpath hlabel
  | methodCallExpression => exact leaves_evalCall forest arithmetic hperform hpaths hpath hlabel
  | binaryExpression => exact leaves_evalBinary forest arithmetic hperform hpath hlabel
  | booleanExpression => exact leaves_evalBoolean forest arithmetic hperform hpath hlabel
  | prefixExpression => exact leaves_evalUnary forest arithmetic hperform hpath (.inl hlabel) hchanges
  | postfixExpression => exact leaves_evalUnary forest arithmetic hperform hpath (.inr hlabel) hchanges
  | ternaryExpression => exact leaves_evalTernary forest arithmetic hperform hpath hlabel
  | assignmentExpression =>
    rw [CodeGraph.changes, hlabel] at hchanges
    cases hchanges
  | userClass | userInterface | method | parameter | blockStatement | ifElseBlockStatement | ifBlockStatement
  | standardCondition | returnStatement | variableDeclarationStatements | variableDeclaration | expressionStatement
  | emptyReferenceExpression =>
    refine .pure ⟨rfl, fun store datum passings _ hdatum => ?_⟩
    cases hdatum <;> cases hlabel.symm.trans ‹walker.graph.labelOf expr = _›
  | _ =>
    rw [hlabel] at hkind
    cases hkind

theorem leaves_evalKind_changing (journals : walker.visitor.Journals) (hchanges : walker.graph.changes expr = true) :
    Leaves (top :: rest) chain (walker.evalKind perform (some path) expr)
    (Changed walker.graph path chain expr top rest) := by
  rw [evalKind]
  cases hlabel : walker.graph.labelOf expr with
  | assignmentExpression => exact leaves_evalAssignment forest arithmetic hperform hpaths hpath hlabel
  | prefixExpression => exact leaves_evalStep arithmetic journals (.inl hlabel) hchanges
  | postfixExpression => exact leaves_evalStep arithmetic journals (.inr hlabel) hchanges
  | _ =>
    rw [CodeGraph.changes, hlabel] at hchanges
    cases hchanges

end

omit perform in
theorem leaves_evalExpression {perform : Perform (Journal σ)} {sites : Option CodePath} {frames : List Frame}
    {post : Value → List Frame → List Moment → Prop} (journals : walker.visitor.Journals)
    (h : Leaves frames chain (walker.evalKind perform sites expr) post)
    (horigin : ∀ value left added, post value left added → post (value.withOrigin expr) left added) :
    Leaves frames chain (walker.evalExpression perform sites expr) post := by
  refine h.bind fun found next added hfound => ?_
  refine (leaves_seeing journals _ _).bind fun _ left silent hleft => ?_
  obtain ⟨rfl, rfl⟩ := hleft
  refine .pure ?_
  rw [append_nil, append_nil]
  split
  · exact hfound
  · exact horigin _ _ _ hfound

end

end Walker

end ApexPaths
